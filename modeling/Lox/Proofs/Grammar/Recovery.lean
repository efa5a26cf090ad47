import Lox.Proofs.Grammar.Acceptance
import Lox.Proofs.Grammar.Panic

/-!
# What is kept next to errors

Whatever the errors are, the statements that are kept derive from the grammar, and the tokens of
their derivations are among those that were read, in the same order. A statement that is broken off
leaves nothing; an assignment to something other than a name leaves what stands in front of its
equals sign.
-/

namespace Lox

open scoped List

namespace PartialStmt

variable {clause : Clause} {front rest : List Token} {token : Token}

theorem readOperand_hides {frames outer : List Frame} {equals : Token} {left : Expr}
    (hclause : clause.Opened front) (hleft : (Operand.mk outer left).Spelled 0 rest)
    (h : .misplaced equals left :: outer <:+ frames) (extended : List Token) :
    (readOperand clause frames token).Keeps (front ++ rest) extended := by
  rw [readOperand]
  split
  · exact .inr (.waiting hclause hleft (h.trans (List.suffix_cons _ _)))
  · exact .inr (.waiting hclause hleft (h.trans (List.suffix_cons _ _)))
  · exact .inr (.waiting hclause hleft (h.trans (List.suffix_cons _ _)))
  · cases token.operand? with
    | none => trivial
    | some e =>
        have happly := Operand.suffix_applyUnary h (by simp [Frame.errors]) e
        exact .inr (.ready hclause hleft happly)

theorem readClosing_hides {operand : Operand} {outer : List Frame} {equals : Token} {left : Expr}
    (hclause : clause.Opened front) (hleft : (Operand.mk outer left).Spelled 0 rest)
    (h : .misplaced equals left :: outer <:+ operand.frames) (extended : List Token) :
    (readClosing clause operand token).Keeps (front ++ rest) extended := by
  rw [readClosing]
  split
  next frames hframes _ =>
    rw [hframes] at h
    rcases List.suffix_cons_iff.mp h with heq | hsuffix
    · cases heq
    · have happly := Operand.suffix_applyUnary hsuffix (by simp [Frame.errors])
        (.group operand.expr)
      exact .inr (.ready hclause hleft happly)
  · trivial
  next hframes _ =>
    rw [hframes] at h
    exact absurd h (by simp)
  · trivial

/-- What stands in front of the equals sign is all that stays, and once the value of the
assignment is complete it stands in its place. -/
theorem Hides.read_keeps {stmt : PartialStmt} {tokens : List Token} (h : stmt.Hides tokens)
    (token : Token) : (stmt.read token).2.Keeps tokens (tokens ++ [token]) := by
  cases h with
  | waiting hclause hleft h => exact readOperand_hides hclause hleft h _
  | @ready clause front rest operand outer equals left hclause hleft h =>
      by_cases hlevel : token.kind.precedence = 0
      · by_cases hequal : token.kind = .equal
        · have happly := Operand.suffix_applyBinary h (by simp [Frame.errors]) 1 operand.expr
          rw [read_ready_of_equal hequal]
          exact .inr (.waiting hclause hleft (happly.trans (List.suffix_cons _ _)))
        · rw [read_ready_of_closing hlevel hequal]
          rcases Operand.suffix_close h [] operand.expr with hsuffix | ⟨earlier, value, hclose⟩
          · exact readClosing_hides hclause hleft hsuffix _
          · -- No parenthesis is open inside of the assignment, so closing reaches its frame, drops
            -- the value, and goes on with the left side among the frames around it.
            obtain ⟨before, inside, rfl, hframes, hsettled, hderives⟩ := hleft
            obtain ⟨o, ho, hspelled⟩ := Operand.close_spelled hframes hsettled hderives
              ((Frame.misplaced equals left).errors ++ earlier)
            rw [hclose, Frame.fill, ho, List.append_assoc]
            exact readClosing_keeps hclause hspelled
      · have happly := Operand.suffix_applyBinary h (by simp [Frame.errors])
          token.kind.precedence operand.expr
        rw [read_ready_of_binary (Kind.mem_operatorsAt_iff.mpr ⟨hlevel, rfl⟩)]
        exact .inr (.waiting hclause hleft (happly.trans (List.suffix_cons _ _)))

end PartialStmt

namespace Unfinished

open Declaration

/-- What is kept of the tokens that have been read: complete statements in open blocks, and what
there is of a statement. -/
inductive Keeps (s : Unfinished) (tokens : List Token) : Prop
  | aside {kept : List Token} (h : ∀ stmt, s.position ≠ .within stmt)
      (hlayers : Layers s.body s.outer kept) (hkept : kept <+ tokens)
  | within {stmt : PartialStmt} {front rest : List Token} (h : s.position = .within stmt)
      (hlayers : Layers s.body s.outer front) (hstmt : stmt.Spelled rest ∨ stmt.Hides rest)
      (hkept : front ++ rest <+ tokens)

variable {s : Unfinished} {tokens : List Token}

theorem readWithin_keeps {stmt : PartialStmt} {front rest : List Token}
    (hlayers : Layers s.body s.outer front) (hstmt : stmt.Spelled rest ∨ stmt.Hides rest)
    (hkept : front ++ rest <+ tokens) (token : Token) :
    (s.readWithin stmt token).Keeps (tokens ++ [token]) := by
  have hreaction : (stmt.read token).2.Keeps rest (rest ++ [token]) := by
    rcases hstmt with hspelled | hhides
    · exact hspelled.read_keeps token
    · exact hhides.read_keeps token
  have hextended : front ++ (rest ++ [token]) <+ tokens ++ [token] := by
    rw [← List.append_assoc]
    exact hkept.append_right [token]
  have hdropped : front ++ rest <+ tokens ++ [token] :=
    hkept.trans (List.sublist_append_left tokens [token])
  cases hread : (stmt.read token).2 with
  | more next =>
      rw [hread] at hreaction
      rw [readWithin_eq_of_more hread]
      rcases hreaction with hspelled | hhides
      · exact .within rfl hlayers (.inl hspelled) hextended
      · exact .within rfl hlayers (.inr hhides) hdropped
  | complete result =>
      rw [hread] at hreaction
      obtain ⟨d, htokens, rfl⟩ := hreaction
      have hnext := hlayers.add d
      rw [htokens] at hnext
      rw [readWithin_eq_of_complete hread]
      exact .aside (by simp) hnext hextended
  | refuse fault =>
      -- The tokens of the broken statement are dropped, those of the complete ones stay.
      rw [readWithin_eq_of_refuse hread]
      refine .aside ?_ hlayers ((List.sublist_append_left front rest).trans hdropped)
      intro stmt
      dsimp only
      split <;> simp

theorem readBetween_keeps {kept : List Token} (h : s.position = .between)
    (hlayers : Layers s.body s.outer kept) (hkept : kept <+ tokens) (token : Token) :
    (s.readBetween token).Keeps (tokens ++ [token]) := by
  have hextended : kept ++ [token] <+ tokens ++ [token] := hkept.append_right [token]
  rw [readBetween]
  split
  next hkind => exact .within rfl hlayers (.inl (.unnamed hkind)) hextended
  next hkind =>
    have hstmt := PartialStmt.Spelled.waiting (.print hkind) .nil
    rw [List.append_nil] at hstmt
    exact .within rfl hlayers (.inl hstmt) hextended
  next hkind => exact .aside (by simp [openBlock, h]) (hlayers.nest hkind []) hextended
  next body outer hkind houter =>
    rw [houter] at hlayers
    generalize hbody : s.body = inner at hlayers
    cases hlayers with
    | @nest _ _ front opening hlayers hopening p =>
        have hnext := hlayers.add (.block ⟨opening, hopening⟩ p ⟨token, hkind⟩)
        refine .aside (by simp [h]) ?_ hextended
        simpa [stmt, Declaration.tokens, hbody] using hnext
  · exact readWithin_keeps hlayers (.inl (.waiting .expression .nil)) (by simpa using hkept) token

theorem Keeps.read (h : s.Keeps tokens) (token : Token) :
    (s.read token).Keeps (tokens ++ [token]) := by
  cases h with
  | @aside kept hposition hlayers hkept =>
      have hdropped : kept <+ tokens ++ [token] :=
        hkept.trans (List.sublist_append_left tokens [token])
      cases hbetween : s.position with
      | between =>
          rw [read_of_between hbetween]
          exact readBetween_keeps hbetween hlayers hkept token
      | within stmt => exact absurd hbetween (hposition stmt)
      | skipping =>
          simp only [Unfinished.read, hbetween]
          split
          · exact .aside (by simp) hlayers hdropped
          · split
            · exact readBetween_keeps (s := { s with position := .between }) rfl hlayers hkept token
            · exact .aside hposition hlayers hdropped
  | within hposition hlayers hstmt hkept =>
      rw [read_of_within hposition]
      exact readWithin_keeps hlayers hstmt hkept token

theorem foldl_read_keeps (tokens : List Token) {s : Unfinished} {front : List Token}
    (h : s.Keeps front) : (tokens.foldl Unfinished.read s).Keeps (front ++ tokens) := by
  induction tokens generalizing s front with
  | nil => simpa using h
  | cons token rest ih => simpa using ih (h.read token)

/-- The statements around all open blocks. -/
theorem Layers.exists_outermost {body : List Stmt} {outer : List (List Stmt)} {tokens : List Token}
    (h : Layers body outer tokens) :
    ∃ p : List Declaration, stmtsOfAll p = (outer.getLast?.getD body).reverse ∧
      tokensOfAll p <+ tokens := by
  induction h with
  | base p => exact ⟨p, by simp, List.Sublist.refl _⟩
  | @nest body outer tokens opening _ _ _ ih =>
      obtain ⟨p, hstmts, htokens⟩ := ih
      refine ⟨p, ?_, htokens.trans (List.sublist_append_left _ _)⟩
      rw [hstmts, List.getLast?_cons]
      rfl

/-- The end of input completes no statement. -/
theorem finish_program (s : Unfinished) {ending : Token} (h : ending.kind = .eof) :
    (s.finish ending).program = (s.outer.getLast?.getD s.body).reverse := by
  cases hposition : s.position with
  | between | skipping => simp [finish, hposition]
  | within stmt =>
      obtain ⟨fault, hrefuse⟩ := stmt.read_end h
      simp [finish, hposition, readWithin_eq_of_refuse hrefuse]

theorem Keeps.exists_declarations (h : s.Keeps tokens) {ending : Token}
    (hending : ending.kind = .eof) :
    ∃ p : List Declaration, stmtsOfAll p = (s.finish ending).program ∧ tokensOfAll p <+ tokens := by
  rw [finish_program s hending]
  cases h with
  | aside _ hlayers hkept =>
      obtain ⟨p, hstmts, htokens⟩ := hlayers.exists_outermost
      exact ⟨p, hstmts, htokens.trans hkept⟩
  | within _ hlayers _ hkept =>
      obtain ⟨p, hstmts, htokens⟩ := hlayers.exists_outermost
      exact ⟨p, hstmts, (htokens.trans (List.sublist_append_left _ _)).trans hkept⟩

end Unfinished

/-- What is read from any tokens derives from the grammar, and the derivation spells some of the
tokens in front of the end of input. -/
theorem Parsed.exists_kept_declarations (tokens : List Token) :
    ∃ p : List Declaration, Declaration.stmtsOfAll p = (ofTokens tokens).program ∧
      Declaration.tokensOfAll p <+ tokens.takeWhile (fun token ↦ !token.isEnd) := by
  rw [ofTokens]
  cases tokens.getLast? with
  | none => exact ⟨[], rfl, List.nil_sublist _⟩
  | some last =>
      have hstart : Unfinished.start.Keeps [] :=
        .aside (by simp [Unfinished.start]) (.base []) (List.Sublist.refl [])
      have hending : ((tokens.find? Token.isEnd).getD (.endOfInput last.line)).kind = .eof := by
        cases hfind : tokens.find? Token.isEnd with
        | none => rfl
        | some ending => exact eq_of_beq (List.find?_some hfind :)
      exact (Unfinished.foldl_read_keeps _ hstart).exists_declarations hending

end Lox
