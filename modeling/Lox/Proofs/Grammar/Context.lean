import Lox.Proofs.Grammar.Blame

/-!
# What has been read

As long as no error has come to light, and none is hidden in a frame, the tokens read so far spell
what is kept of them: complete declarations, open blocks, and a statement whose frames hold
complete operands. Any other state ends in an error.
-/

namespace Lox

/-- Some derivation at the level spells the tokens and builds the expression. -/
def Phrase.Derives (level : Nat) (tokens : List Token) (e : Expr) : Prop :=
  ∃ d : Phrase level, d.tokens = tokens ∧ d.expr = e

namespace Phrase.Derives

theorem mono {m n : Nat} {tokens : List Token} {e : Expr} (h : Derives n tokens e) (hmn : m ≤ n) :
    Derives m tokens e := by
  induction hmn with
  | refl => exact h
  | step _ ih =>
      obtain ⟨d, htokens, hexpr⟩ := h
      exact ih ⟨d.tighter, htokens, hexpr⟩

theorem assignment {name equals : Token} {tokens : List Token} {e : Expr}
    (hname : name.kind = .identifier) (hequals : equals.kind = .equal) (h : Derives 0 tokens e) :
    Derives 0 (name :: equals :: tokens) (.assign name e) := by
  obtain ⟨d, rfl, rfl⟩ := h
  exact ⟨.assignment ⟨name, hname⟩ ⟨equals, hequals⟩ d, rfl, rfl⟩

theorem chain {op : Token} {front rest : List Token} {left right : Expr}
    (hop : op.kind.precedence ≠ 0) (hleft : Derives op.kind.precedence front left)
    (hright : Derives (op.kind.precedence + 1) rest right) :
    Derives op.kind.precedence (front ++ op :: rest) (.binary op left right) := by
  obtain ⟨c, rfl, rfl⟩ := hleft
  obtain ⟨d, rfl, rfl⟩ := hright
  exact ⟨.chain c ⟨op, Kind.mem_operatorsAt_iff.mpr ⟨hop, rfl⟩⟩ d, rfl, rfl⟩

theorem unary {op : Token} {tokens : List Token} {e : Expr}
    (hop : op.kind = .bang ∨ op.kind = .minus) (h : Derives 5 tokens e) :
    Derives 5 (op :: tokens) (.unary op e) := by
  obtain ⟨d, rfl, rfl⟩ := h
  exact ⟨.unary ⟨op, hop⟩ d, rfl, rfl⟩

theorem group {opening closing : Token} {tokens : List Token} {e : Expr}
    (hopening : opening.kind = .leftParen) (hclosing : closing.kind = .rightParen)
    (h : Derives 0 tokens e) : Derives 6 (opening :: (tokens ++ [closing])) (.group e) := by
  obtain ⟨d, rfl, rfl⟩ := h
  exact ⟨.group ⟨opening, hopening⟩ d ⟨closing, hclosing⟩, rfl, rfl⟩

theorem eq_of_var {n : Nat} {tokens : List Token} {name : Token}
    (h : Derives n tokens (.var name)) : tokens = [name] ∧ name.kind = .identifier := by
  obtain ⟨d, rfl, hexpr⟩ := h
  induction d with
  | assignment | chain | unary | group => simp [expr] at hexpr
  | atom token hdenotes =>
      cases hdenotes with
      | name hkind =>
          obtain rfl := Expr.var.inj hexpr
          exact ⟨rfl, hkind⟩
      | _ => simp [expr] at hexpr
  | tighter phrase ih => exact ih hexpr

end Phrase.Derives

open Phrase (Derives)

/-! ## Frames -/

namespace Frame

/-- The tokens from the start of an expression up to the operand that the frames wait for. -/
inductive Spelled : List Frame → List Token → Prop
  | nil : Spelled [] []
  | group {frames : List Frame} {tokens : List Token} {opening : Token}
      (h : Spelled frames tokens) (hopening : opening.kind = .leftParen) :
      Spelled (group :: frames) (tokens ++ [opening])
  | unary {frames : List Frame} {tokens : List Token} {op : Token} (h : Spelled frames tokens)
      (hop : op.kind = .bang ∨ op.kind = .minus) : Spelled (unary op :: frames) (tokens ++ [op])
  | binary {frames : List Frame} {tokens operand : List Token} {op : Token} {left : Expr}
      (h : Spelled frames tokens) (hop : op.kind.precedence ≠ 0)
      (hsettled : Settled op.kind.precedence frames)
      (hleft : Derives op.kind.precedence operand left) :
      Spelled (binary op left :: frames) (tokens ++ (operand ++ [op]))
  | assign {frames : List Frame} {tokens : List Token} {name equals : Token}
      (h : Spelled frames tokens) (hsettled : Settled 0 frames) (hname : name.kind = .identifier)
      (hequals : equals.kind = .equal) :
      Spelled (assign name :: frames) (tokens ++ [name, equals])

theorem Spelled.settled_zero {frames : List Frame} {tokens : List Token}
    (h : Spelled frames tokens) (hsettled : Settled 1 frames) : Settled 0 frames := by
  cases h with
  | nil | group | assign => trivial
  | unary => exact hsettled.elim
  | binary _ hop => exact absurd (Nat.lt_one_iff.mp hsettled) hop

end Frame

/-- The tokens of the frames and of a derivation of the operand. -/
def Operand.Spelled (level : Nat) (operand : Operand) (tokens : List Token) : Prop :=
  ∃ front rest, tokens = front ++ rest ∧ Frame.Spelled operand.frames front ∧
    Frame.Settled level operand.frames ∧ Derives level rest operand.expr

namespace Operand

theorem applyUnary_spelled {frames : List Frame} {front rest : List Token} {e : Expr}
    (hframes : Frame.Spelled frames front) (h : Derives 5 rest e) :
    (applyUnary frames e).Spelled 5 (front ++ rest) := by
  induction hframes generalizing rest e with
  | nil => exact ⟨[], rest, rfl, .nil, trivial, h⟩
  | group hframes hopening => exact ⟨_, rest, rfl, .group hframes hopening, trivial, h⟩
  | @unary frames tokens op hframes hop ih =>
      rw [List.append_assoc]
      exact ih (h.unary hop)
  | @binary frames tokens operand op left hframes hop hsettled hleft =>
      exact ⟨_, rest, rfl, .binary hframes hop hsettled hleft, op.kind.precedence_lt, h⟩
  | assign hframes hsettled hname hequals =>
      exact ⟨_, rest, rfl, .assign hframes hsettled hname hequals, trivial, h⟩

theorem applyBinary_spelled {m n : Nat} {frames : List Frame} {front rest : List Token} {e : Expr}
    (hframes : Frame.Spelled frames front) (hsettled : Frame.Settled n frames)
    (h : Derives n rest e) (hmn : m ≤ n) : (applyBinary m frames e).Spelled m (front ++ rest) := by
  induction hframes generalizing n rest e with
  | nil => exact ⟨[], rest, rfl, .nil, trivial, h.mono hmn⟩
  | group hframes hopening =>
      exact ⟨_, rest, rfl, .group hframes hopening, trivial, h.mono hmn⟩
  | unary => exact hsettled.elim
  | @binary frames tokens operand op left hframes hop houter hleft ih =>
      rw [applyBinary]
      by_cases hlevel : m ≤ op.kind.precedence
      · have hchain := Derives.chain hop hleft (h.mono hsettled)
        rw [if_pos hlevel]
        simpa using ih houter hchain hlevel
      · rw [if_neg hlevel]
        exact ⟨_, rest, rfl, .binary hframes hop houter hleft, Nat.lt_of_not_le hlevel,
          h.mono hmn⟩
  | assign hframes houter hname hequals =>
      exact ⟨_, rest, rfl, .assign hframes houter hname hequals, trivial, h.mono hmn⟩

/-- Closing brings no error to light. -/
theorem close_spelled {n : Nat} {frames : List Frame} {front rest : List Token} {e : Expr}
    (hframes : Frame.Spelled frames front) (hsettled : Frame.Settled n frames)
    (h : Derives n rest e) (errors : List SyntaxError) :
    ∃ operand : Operand, close errors frames e = (errors, operand) ∧
      operand.Spelled 0 (front ++ rest) := by
  induction hframes generalizing n rest e with
  | nil => exact ⟨_, rfl, [], rest, rfl, .nil, trivial, h.mono (Nat.zero_le n)⟩
  | group hframes hopening =>
      exact ⟨_, rfl, _, rest, rfl, .group hframes hopening, trivial, h.mono (Nat.zero_le n)⟩
  | unary => exact hsettled.elim
  | @binary frames tokens operand op left hframes hop houter hleft ih =>
      have hchain := Derives.chain hop hleft (h.mono hsettled)
      obtain ⟨o, hclose, hspelled⟩ := ih houter hchain
      exact ⟨o, hclose, by simpa using hspelled⟩
  | @assign frames tokens name equals hframes houter hname hequals ih =>
      have hassign := Derives.assignment hname hequals (h.mono (Nat.zero_le n))
      obtain ⟨o, hclose, hspelled⟩ := ih houter hassign
      exact ⟨o, hclose, by simpa using hspelled⟩

end Operand

/-! ## Partial statements -/

/-- The tokens of a statement in front of its expression. -/
inductive Clause.Opened : Clause → List Token → Prop
  | print {word : Token} (h : word.kind = .keyword .printWord) : Opened (.print word) [word]
  | declare {word name equals : Token} (hword : word.kind = .keyword .varWord)
      (hname : name.kind = .identifier) (hequals : equals.kind = .equal) :
      Opened (.declare name) [word, name, equals]
  | expression : Opened .expression []

/-- The statement that the tokens of an expression and a semicolon complete. -/
theorem Clause.Opened.complete {clause : Clause} {front rest : List Token} {e : Expr}
    {semicolon : Token} (hclause : clause.Opened front) (h : Derives 0 rest e)
    (hsemicolon : semicolon.kind = .semicolon) :
    ∃ d : Declaration, d.tokens = front ++ (rest ++ [semicolon]) ∧ d.stmt = clause.complete e := by
  obtain ⟨d, rfl, rfl⟩ := h
  cases hclause with
  | @print word hword => exact ⟨.print ⟨word, hword⟩ d ⟨semicolon, hsemicolon⟩, rfl, rfl⟩
  | @declare word name equals hword hname hequals =>
      exact ⟨.initialized ⟨word, hword⟩ ⟨name, hname⟩ ⟨equals, hequals⟩ d
        ⟨semicolon, hsemicolon⟩, rfl, rfl⟩
  | expression => exact ⟨.expression d ⟨semicolon, hsemicolon⟩, rfl, rfl⟩

namespace PartialStmt

/-- The tokens of a partial statement. -/
inductive Spelled : PartialStmt → List Token → Prop
  | unnamed {word : Token} (h : word.kind = .keyword .varWord) : Spelled unnamed [word]
  | named {word name : Token} (hword : word.kind = .keyword .varWord)
      (hname : name.kind = .identifier) : Spelled (named name) [word, name]
  | waiting {clause : Clause} {frames : List Frame} {front rest : List Token}
      (hclause : clause.Opened front) (h : Frame.Spelled frames rest) :
      Spelled (waiting clause frames) (front ++ rest)
  | ready {clause : Clause} {operand : Operand} {front rest : List Token}
      (hclause : clause.Opened front) (h : operand.Spelled 5 rest) :
      Spelled (ready clause operand) (front ++ rest)

end PartialStmt

namespace PartialStmt

/-- The tokens in front of the equals sign of an assignment to something other than a name, which
is all that such an assignment leaves. -/
inductive Hides : PartialStmt → List Token → Prop
  | waiting {clause : Clause} {front rest : List Token} {frames outer : List Frame} {equals : Token}
      {left : Expr} (hclause : clause.Opened front) (hleft : (Operand.mk outer left).Spelled 0 rest)
      (h : .misplaced equals left :: outer <:+ frames) :
      Hides (waiting clause frames) (front ++ rest)
  | ready {clause : Clause} {front rest : List Token} {operand : Operand} {outer : List Frame}
      {equals : Token} {left : Expr} (hclause : clause.Opened front)
      (hleft : (Operand.mk outer left).Spelled 0 rest)
      (h : .misplaced equals left :: outer <:+ operand.frames) :
      Hides (ready clause operand) (front ++ rest)

theorem Hides.faulty {stmt : PartialStmt} {tokens : List Token} (h : stmt.Hides tokens) :
    stmt.Faulty := by
  cases h with
  | waiting _ _ hsuffix | ready _ _ hsuffix =>
      exact ⟨_, hsuffix.subset List.mem_cons_self, by simp [Frame.errors]⟩

end PartialStmt

/-- What a token may do to a partial statement that the tokens in front of it spell or leave. -/
def Reaction.Keeps (tokens extended : List Token) : Reaction → Prop
  | .more stmt => stmt.Spelled extended ∨ stmt.Hides tokens
  | .complete stmt => ∃ d : Declaration, d.tokens = extended ∧ d.stmt = stmt
  | .refuse _ => True

/-- What a token may do to a partial statement without an error, if the given tokens spell it
together with that token. -/
def Reaction.Spelled (tokens : List Token) : Reaction → Prop
  | .more stmt => stmt.Spelled tokens ∨ stmt.Faulty
  | .complete stmt => ∃ d : Declaration, d.tokens = tokens ∧ d.stmt = stmt
  | .refuse _ => True

namespace PartialStmt

variable {clause : Clause} {front rest : List Token} {token : Token}

theorem readOperand_keeps {frames : List Frame} (hclause : clause.Opened front)
    (h : Frame.Spelled frames rest) :
    (readOperand clause frames token).Keeps (front ++ rest) (front ++ (rest ++ [token])) := by
  rw [readOperand]
  split
  next hkind => exact .inl (.waiting hclause (.group h hkind))
  next hkind => exact .inl (.waiting hclause (.unary h (.inl hkind)))
  next hkind => exact .inl (.waiting hclause (.unary h (.inr hkind)))
  · cases hoperand : token.operand? with
    | none => trivial
    | some e =>
        have hdenotes := Token.operand?_eq_some_iff.mp hoperand
        have hatom : Derives 5 [token] e := ⟨.tighter (.atom token hdenotes), rfl, rfl⟩
        exact .inl (.ready hclause (Operand.applyUnary_spelled h hatom))

theorem readClosing_keeps {operand : Operand} (hclause : clause.Opened front)
    (h : operand.Spelled 0 rest) :
    (readClosing clause operand token).Keeps (front ++ rest) (front ++ (rest ++ [token])) := by
  obtain ⟨frames, e⟩ := operand
  obtain ⟨before, inside, rfl, hframes, -, hderives⟩ := h
  rw [readClosing]
  split
  next outer heq hkind =>
    obtain rfl : frames = .group :: outer := heq
    cases hframes with
    | @group _ tokens opening houter hopening =>
        have hgroup := (hderives.group hopening hkind).mono (Nat.le_succ 5)
        have hready := Spelled.ready hclause (Operand.applyUnary_spelled houter hgroup)
        apply Or.inl
        simpa using hready
  · trivial
  next heq hkind =>
    obtain rfl : frames = [] := heq
    cases hframes
    exact hclause.complete hderives hkind
  · trivial

theorem read_ready_keeps {operand : Operand} (hclause : clause.Opened front)
    (h : operand.Spelled 5 rest) :
    ((ready clause operand).read token).2.Keeps (front ++ rest) (front ++ (rest ++ [token])) := by
  obtain ⟨before, inside, rfl, hframes, hsettled, hderives⟩ := h
  by_cases hlevel : token.kind.precedence = 0
  · by_cases hequal : token.kind = .equal
    · obtain ⟨a, b, htokens, ha, haSettled, hb⟩ :=
        Operand.applyBinary_spelled hframes hsettled hderives (by decide : 1 ≤ 5)
      rw [read_ready_of_equal hequal, htokens]
      generalize Operand.applyBinary 1 operand.frames operand.expr = target at ha haSettled hb ⊢
      obtain ⟨outer, left⟩ := target
      cases left with
      | var name =>
          obtain ⟨rfl, hname⟩ := hb.eq_of_var
          have hassign := Frame.Spelled.assign ha (ha.settled_zero haSettled) hname hequal
          apply Or.inl
          simpa [Frame.ofTarget] using Spelled.waiting hclause hassign
      | _ =>
          have hleft := hb.mono (Nat.zero_le 1)
          exact .inr (.waiting hclause ⟨a, b, rfl, ha, ha.settled_zero haSettled, hleft⟩
            List.suffix_rfl)
    · obtain ⟨o, hclose, hspelled⟩ := Operand.close_spelled hframes hsettled hderives []
      rw [read_ready_of_closing hlevel hequal, hclose]
      exact readClosing_keeps hclause hspelled
  · obtain ⟨a, b, htokens, ha, haSettled, hb⟩ :=
      Operand.applyBinary_spelled hframes hsettled hderives
        (Nat.le_of_lt token.kind.precedence_lt)
    have hbinary := Frame.Spelled.binary ha hlevel haSettled hb
    rw [read_ready_of_binary (Kind.mem_operatorsAt_iff.mpr ⟨hlevel, rfl⟩), htokens,
      List.append_assoc]
    exact .inl (.waiting hclause hbinary)

theorem Spelled.read_keeps {stmt : PartialStmt} {tokens : List Token} (h : stmt.Spelled tokens)
    (token : Token) : (stmt.read token).2.Keeps tokens (tokens ++ [token]) := by
  cases h with
  | @unnamed word hword =>
      by_cases hname : token.kind = .identifier
      · rw [PartialStmt.read, if_pos hname]
        exact .inl (.named hword hname)
      · rw [PartialStmt.read, if_neg hname]
        trivial
  | @named word name hword hname =>
      unfold PartialStmt.read
      dsimp only
      split
      next hequal =>
        have hwaiting := Spelled.waiting (.declare hword hname hequal) .nil
        rw [List.append_nil] at hwaiting
        exact .inl hwaiting
      next hsemicolon =>
        exact ⟨.bare ⟨word, hword⟩ ⟨name, hname⟩ ⟨token, hsemicolon⟩, rfl, rfl⟩
      · trivial
  | @waiting clause frames front rest hclause hframes =>
      rw [List.append_assoc]
      exact readOperand_keeps hclause hframes
  | @ready clause operand front rest hclause hoperand =>
      rw [List.append_assoc]
      exact read_ready_keeps hclause hoperand

theorem Spelled.read {stmt : PartialStmt} {tokens : List Token} (h : stmt.Spelled tokens)
    (token : Token) : (stmt.read token).2.Spelled (tokens ++ [token]) := by
  have hkeeps := h.read_keeps token
  cases hreaction : (stmt.read token).2 with
  | more next =>
      rw [hreaction] at hkeeps
      exact hkeeps.imp_right Hides.faulty
  | complete result =>
      rw [hreaction] at hkeeps
      exact hkeeps
  | refuse fault => trivial

end PartialStmt

end Lox
