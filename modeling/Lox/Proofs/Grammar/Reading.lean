import Lox.Proofs.Grammar.Derivation

/-!
# Reading what the grammar derives

The tokens of a derivation are read without an error and give its tree. A phrase is read behind
frames that wait for an operand of its level; the operand that stands at its end and the one that
the phrase builds are then treated alike by all tokens that may follow.
-/

namespace Lox

namespace PartialStmt

/-- Tokens that carry a statement on, where none of them brings an error to light. -/
inductive Advances : PartialStmt → List Token → PartialStmt → Prop
  | refl (stmt : PartialStmt) : Advances stmt [] stmt
  | step {stmt next last : PartialStmt} {token : Token} {rest : List Token}
      (h : stmt.read token = ([], .more next)) (hrest : Advances next rest last) :
      Advances stmt (token :: rest) last

theorem Advances.trans {a b c : PartialStmt} {front rest : List Token} (h : Advances a front b)
    (hrest : Advances b rest c) : Advances a (front ++ rest) c := by
  induction h with
  | refl => exact hrest
  | step hread _ ih => exact .step hread (ih hrest)

theorem Advances.single {a b : PartialStmt} {token : Token} (h : a.read token = ([], .more b)) :
    Advances a [token] b :=
  .step h (.refl b)

end PartialStmt

/-! ## Frames around a phrase -/

namespace Frame

/-- No operator in front takes what stands behind the frames before a phrase of the level ends. -/
def Settled (level : Nat) : List Frame → Prop
  | unary _ :: _ => False
  | binary op _ :: _ => op.kind.precedence < level
  | _ => True

theorem Settled.mono {m n : Nat} {frames : List Frame} (h : Settled m frames) (hmn : m ≤ n) :
    Settled n frames := by
  unfold Settled at h ⊢
  split
  · exact h
  · exact Nat.lt_of_lt_of_le h hmn
  · trivial

theorem Settled.applyUnary_eq {n : Nat} {frames : List Frame} (h : Settled n frames) (e : Expr) :
    Operand.applyUnary frames e = ⟨frames, e⟩ := by
  unfold Operand.applyUnary
  split
  · exact h.elim
  · rfl

theorem Settled.applyBinary_eq {n : Nat} {frames : List Frame} (h : Settled n frames) (e : Expr) :
    Operand.applyBinary n frames e = ⟨frames, e⟩ := by
  unfold Operand.applyBinary
  split
  · rw [if_neg (Nat.not_le_of_lt h)]
  · rfl

end Frame

namespace Operand

/-- Two operands that no token behind a phrase of the level tells apart. -/
structure Agrees (level : Nat) (a b : Operand) : Prop where
  eq : 5 ≤ level → a = b
  applyBinary_eq : ∀ m, 0 < m → m ≤ level →
    applyBinary m a.frames a.expr = applyBinary m b.frames b.expr
  close_eq : ∀ errors, close errors a.frames a.expr = close errors b.frames b.expr

theorem Agrees.refl (level : Nat) (a : Operand) : Agrees level a a :=
  ⟨fun _ ↦ rfl, fun _ _ _ ↦ rfl, fun _ ↦ rfl⟩

theorem Agrees.mono {m n : Nat} {a b : Operand} (h : Agrees n a b) (hmn : m ≤ n) : Agrees m a b :=
  ⟨fun hm ↦ h.eq (Nat.le_trans hm hmn),
    fun k hk hkm ↦ h.applyBinary_eq k hk (Nat.le_trans hkm hmn), h.close_eq⟩

end Operand

/-! ## Phrases -/

namespace PartialStmt

theorem read_waiting_of_denotes {token : Token} {e : Expr} (h : token.Denotes e) (clause : Clause)
    (frames : List Frame) :
    (waiting clause frames).read token = ([], .more (ready clause (.applyUnary frames e))) := by
  have hoperand : token.operand? = some e := Token.operand?_eq_some_iff.mpr h
  simp only [read, readOperand]
  split
  next hkind => simp [Token.operand?, hkind] at hoperand
  next hkind => simp [Token.operand?, hkind] at hoperand
  next hkind => simp [Token.operand?, hkind] at hoperand
  · rw [hoperand]

theorem read_waiting_of_unary {op : Token} (h : op.kind = .bang ∨ op.kind = .minus)
    (clause : Clause) (frames : List Frame) :
    (waiting clause frames).read op = ([], .more (waiting clause (.unary op :: frames))) := by
  rcases h with h | h <;> simp [read, readOperand, h]

theorem read_waiting_of_leftParen {opening : Token} (h : opening.kind = .leftParen)
    (clause : Clause) (frames : List Frame) :
    (waiting clause frames).read opening = ([], .more (waiting clause (.group :: frames))) := by
  simp [read, readOperand, h]

theorem read_ready_of_binary {op : Token} {n : Nat} (h : op.kind ∈ Kind.operatorsAt n)
    (clause : Clause) (operand : Operand) :
    (ready clause operand).read op =
      let left := Operand.applyBinary n operand.frames operand.expr
      ([], .more (waiting clause (.binary op left.expr :: left.frames))) := by
  obtain ⟨hn, hprecedence⟩ := Kind.mem_operatorsAt_iff.mp h
  simp [read, readOperator, hprecedence, hn]

theorem read_ready_of_equal {equals : Token} (h : equals.kind = .equal) (clause : Clause)
    (operand : Operand) :
    (ready clause operand).read equals =
      let target := Operand.applyBinary 1 operand.frames operand.expr
      ([], .more (waiting clause (.ofTarget equals target.expr :: target.frames))) := by
  simp [read, readOperator, h, Kind.precedence]

/-- A token that is no operator and no equals sign closes what it can. -/
theorem read_ready_of_closing {token : Token} (hprecedence : token.kind.precedence = 0)
    (hequal : token.kind ≠ .equal) (clause : Clause) (operand : Operand) :
    (ready clause operand).read token =
      let closed := Operand.close [] operand.frames operand.expr
      (closed.1, readClosing clause closed.2 token) := by
  simp [read, readOperator, hprecedence, hequal]

end PartialStmt

open PartialStmt

theorem Phrase.advances {n : Nat} (d : Phrase n) (clause : Clause) (frames : List Frame)
    (h : n < 5 → Frame.Settled n frames) :
    ∃ operand : Operand, Advances (.waiting clause frames) d.tokens (.ready clause operand) ∧
      operand.Agrees n (.applyUnary frames d.expr) := by
  induction d generalizing frames with
  | assignment name equals value ih =>
      have h0 : Frame.Settled 0 frames := h (by decide)
      obtain ⟨operand, hadvances, hagrees⟩ := ih (.assign name.1 :: frames) fun _ ↦ trivial
      have hname := read_waiting_of_denotes (.name name.2) clause frames
      rw [h0.applyUnary_eq] at hname
      have hequals := read_ready_of_equal equals.2 clause ⟨frames, .var name.1⟩
      simp only [(h0.mono (Nat.zero_le 1)).applyBinary_eq, Frame.ofTarget] at hequals
      refine ⟨operand, .step hname (.step hequals hadvances), ?_, ?_, ?_⟩
      · intro h5
        exact absurd h5 (by decide)
      · intro m hm hm0
        exact absurd hm (Nat.not_lt_of_le hm0)
      · intro errors
        rw [hagrees.close_eq, h0.applyUnary_eq]
        rfl
  | @chain n left op right ihl ihr =>
      obtain ⟨hn, hprecedence⟩ := Kind.mem_operatorsAt_iff.mp op.2
      have hn5 : n < 5 := hprecedence ▸ op.1.kind.precedence_lt
      obtain ⟨a, hleft, hagreesLeft⟩ := ihl frames h
      have hop := read_ready_of_binary op.2 clause a
      rw [hagreesLeft.applyBinary_eq n (Nat.pos_of_ne_zero hn) (Nat.le_refl n),
        (h hn5).applyUnary_eq, (h hn5).applyBinary_eq] at hop
      have hsettled : Frame.Settled (n + 1) (.binary op.1 left.expr :: frames) := by
        simp [Frame.Settled, hprecedence]
      obtain ⟨b, hright, hagreesRight⟩ := ihr (.binary op.1 left.expr :: frames) fun _ ↦ hsettled
      refine ⟨b, hleft.trans (.step hop hright), ?_, ?_, ?_⟩
      · intro h5
        exact absurd h5 (Nat.not_le_of_lt hn5)
      · intro m hm hmn
        rw [hagreesRight.applyBinary_eq m hm (Nat.le_succ_of_le hmn), (h hn5).applyUnary_eq]
        simp [Operand.applyUnary, Operand.applyBinary, hprecedence, hmn, Phrase.expr]
      · intro errors
        rw [hagreesRight.close_eq, (h hn5).applyUnary_eq]
        rfl
  | unary op operand ih =>
      obtain ⟨a, hadvances, hagrees⟩ := ih (.unary op.1 :: frames) fun h5 ↦ absurd h5 (by decide)
      exact ⟨a, .step (read_waiting_of_unary op.2 clause frames) hadvances, hagrees⟩
  | group opening inner closing ih =>
      obtain ⟨a, hadvances, hagrees⟩ := ih (.group :: frames) fun _ ↦ trivial
      have hopening := read_waiting_of_leftParen opening.2 clause frames
      have hclosing : (ready clause a).read closing.1 =
          ([], .more (ready clause (.applyUnary frames (.group inner.expr)))) := by
        rw [read_ready_of_closing (by simp [closing.2, Kind.precedence]) (by simp [closing.2]),
          hagrees.close_eq]
        simp [Operand.applyUnary, Operand.close, readClosing, closing.2]
      exact ⟨_, .step hopening (hadvances.trans (.single hclosing)), .refl 6 _⟩
  | atom token hdenotes =>
      exact ⟨_, .single (read_waiting_of_denotes hdenotes clause frames), .refl 6 _⟩
  | @tighter n phrase ih =>
      obtain ⟨a, hadvances, hagrees⟩ := ih frames fun hn ↦
        (h (Nat.lt_of_succ_lt hn)).mono (Nat.le_succ n)
      exact ⟨a, hadvances, hagrees.mono (Nat.le_succ n)⟩

theorem Phrase.read_semicolon (d : Phrase 0) (clause : Clause) {semicolon : Token}
    (h : semicolon.kind = .semicolon) :
    ∃ operand : Operand, Advances (.waiting clause []) d.tokens (.ready clause operand) ∧
      (PartialStmt.ready clause operand).read semicolon =
        ([], .complete (clause.complete d.expr)) := by
  obtain ⟨operand, hadvances, hagrees⟩ := d.advances clause [] fun _ ↦ trivial
  refine ⟨operand, hadvances, ?_⟩
  rw [read_ready_of_closing (by simp [h, Kind.precedence]) (by simp [h]), hagrees.close_eq]
  simp [Operand.applyUnary, Operand.close, readClosing, h]

/-! ## Declarations -/

namespace Unfinished

theorem read_of_between {s : Unfinished} (h : s.position = .between) (token : Token) :
    s.read token = s.readBetween token := by
  simp [read, h]

theorem read_of_within {s : Unfinished} {stmt : PartialStmt} (h : s.position = .within stmt)
    (token : Token) : s.read token = s.readWithin stmt token := by
  simp [read, h]

theorem readWithin_of_more {stmt next : PartialStmt} {token : Token}
    (h : stmt.read token = ([], .more next)) (s : Unfinished) :
    s.readWithin stmt token = { s with position := .within next } := by
  simp [readWithin, h]

theorem readWithin_of_complete {stmt : PartialStmt} {token : Token} {result : Stmt}
    (h : stmt.read token = ([], .complete result)) (s : Unfinished) :
    s.readWithin stmt token = s.add result := by
  simp [readWithin, h]

theorem foldl_read_of_advances {stmt last : PartialStmt} {tokens : List Token}
    (h : Advances stmt tokens last) (s : Unfinished) :
    tokens.foldl read { s with position := .within stmt } =
      { s with position := .within last } := by
  induction h with
  | refl => rfl
  | step hread _ ih =>
      rw [List.foldl_cons, ← ih, read_of_within rfl, readWithin_of_more hread]

theorem foldl_read_phrase (d : Phrase 0) (clause : Clause) (semicolon : Terminal .semicolon)
    (s : Unfinished) :
    (d.tokens ++ [semicolon.1]).foldl read { s with position := .within (.waiting clause []) } =
      s.add (clause.complete d.expr) := by
  obtain ⟨operand, hadvances, hsemicolon⟩ := d.read_semicolon clause semicolon.2
  rw [List.foldl_append, foldl_read_of_advances hadvances, List.foldl_cons, read_of_within rfl,
    readWithin_of_complete hsemicolon]
  rfl

/-- A token that goes on with an expression statement starts one. -/
theorem readBetween_of_more {token : Token} {next : PartialStmt}
    (h : (PartialStmt.waiting .expression []).read token = ([], .more next)) (s : Unfinished) :
    s.readBetween token = { s with position := .within next } := by
  rw [← readWithin_of_more h s, readBetween]
  split
  next _ _ hkind => simp [PartialStmt.read, readOperand, Token.operand?, hkind] at h
  next _ _ hkind => simp [PartialStmt.read, readOperand, Token.operand?, hkind] at h
  next _ _ hkind => simp [PartialStmt.read, readOperand, Token.operand?, hkind] at h
  next _ _ _ hkind _ => simp [PartialStmt.read, readOperand, Token.operand?, hkind] at h
  · rfl

theorem foldl_read_expression (d : Phrase 0) (semicolon : Terminal .semicolon) (s : Unfinished)
    (h : s.position = .between) :
    (d.tokens ++ [semicolon.1]).foldl read s = s.add (.expression d.expr) := by
  obtain ⟨operand, hadvances, hsemicolon⟩ := d.read_semicolon .expression semicolon.2
  cases htokens : d.tokens with
  | nil =>
      rw [htokens] at hadvances
      nomatch hadvances
  | cons token rest =>
      rw [htokens] at hadvances
      cases hadvances with
      | step hread hrest =>
          rw [List.cons_append, List.foldl_cons, read_of_between h, readBetween_of_more hread,
            List.foldl_append, foldl_read_of_advances hrest, List.foldl_cons, read_of_within rfl,
            readWithin_of_complete hsemicolon]
          rfl

mutual

theorem foldl_read_declaration (d : Declaration) (s : Unfinished) (h : s.position = .between) :
    d.tokens.foldl read s = s.add d.stmt := by
  match d with
  | .bare word name semicolon =>
      simp [Declaration.tokens, Declaration.stmt, read, h, readBetween, word.2, readWithin,
        PartialStmt.read, name.2, semicolon.2, add]
  | .initialized word name equals initial semicolon =>
      rw [Declaration.tokens, List.foldl_cons, List.foldl_cons, List.foldl_cons,
        Declaration.stmt, ← Clause.complete, ← foldl_read_phrase initial _ semicolon s]
      simp [read, h, readBetween, word.2, readWithin, PartialStmt.read, name.2, equals.2]
  | .print word value semicolon =>
      rw [Declaration.tokens, List.foldl_cons, Declaration.stmt, ← Clause.complete,
        ← foldl_read_phrase value _ semicolon s]
      simp [read, h, readBetween, word.2]
  | .block opening body closing =>
      rw [Declaration.tokens, List.foldl_cons, List.foldl_append,
        show s.read opening.1 = s.openBlock by simp [read, h, readBetween, opening.2],
        foldl_read_declarations body s.openBlock h]
      simp [read, h, readBetween, closing.2, openBlock, add, Declaration.stmt]
  | .expression value semicolon => exact foldl_read_expression value semicolon s h

theorem foldl_read_declarations (p : List Declaration) (s : Unfinished)
    (h : s.position = .between) :
    (Declaration.tokensOfAll p).foldl read s =
      { s with body := (Declaration.stmtsOfAll p).reverse ++ s.body } := by
  match p with
  | [] => simp [Declaration.tokensOfAll, Declaration.stmtsOfAll]
  | d :: rest =>
      rw [Declaration.tokensOfAll, List.foldl_append, foldl_read_declaration d s h,
        foldl_read_declarations rest (s.add d.stmt) rfl]
      simp [Declaration.stmtsOfAll, add, h]

end

end Unfinished

end Lox
