import Lox.Proofs.Grammar.Independence

/-!
# The earliest error

The first error that breaks a statement off stands at the first token that no program can have
there. What a calm reader has read can be completed: each open parenthesis can be closed behind an
operand, then the statement, then each open block. What it refuses stays refused.
-/

namespace Lox

/-! ## Frames get fewer -/

namespace Operand

theorem applyUnary_frames_suffix (frames : List Frame) (e : Expr) :
    (applyUnary frames e).frames <:+ frames := by
  induction frames generalizing e with
  | nil => exact List.suffix_rfl
  | cons frame frames ih =>
      cases frame with
      | unary op => exact (ih (.unary op e)).trans (List.suffix_cons _ _)
      | group | binary | assign | misplaced => exact List.suffix_rfl

theorem close_frames_suffix (errors : List SyntaxError) (frames : List Frame) (e : Expr) :
    (close errors frames e).2.frames <:+ frames := by
  induction frames generalizing errors e with
  | nil => exact List.suffix_rfl
  | cons frame frames ih =>
      by_cases hgroup : frame = .group
      · rw [hgroup]
        exact List.suffix_rfl
      · rw [close_cons hgroup]
        exact (ih _ _).trans (List.suffix_cons _ _)

/-- What is left open are parentheses. -/
theorem close_frames_eq_nil_or (errors : List SyntaxError) (frames : List Frame) (e : Expr) :
    (close errors frames e).2.frames = [] ∨
      ∃ rest, (close errors frames e).2.frames = .group :: rest := by
  induction frames generalizing errors e with
  | nil => exact .inl rfl
  | cons frame frames ih =>
      by_cases hgroup : frame = .group
      · rw [hgroup]
        exact .inr ⟨frames, rfl⟩
      · rw [close_cons hgroup]
        exact ih _ _

end Operand

namespace Unfinished

variable {s : Unfinished}

/-- Further tokens lead to the end of a program, and break no statement off. -/
def Completable (s : Unfinished) : Prop :=
  ∃ tokens : List Token, (∀ token ∈ tokens, token.kind ≠ .eof) ∧
    (tokens.foldl Unfinished.read s).Calm ∧ (tokens.foldl Unfinished.read s).AtRest

theorem Completable.of_read {token : Token} (hkind : token.kind ≠ .eof)
    (h : (s.read token).Completable) : s.Completable := by
  obtain ⟨tokens, htokens, hcalm, hrest⟩ := h
  exact ⟨token :: tokens, List.forall_mem_cons.mpr ⟨hkind, htokens⟩, hcalm, hrest⟩

/-! ## Completing -/

theorem Calm.completable_of_between (h : s.Calm) (hposition : s.position = .between) :
    s.Completable := by
  generalize hn : s.outer = outer
  induction outer generalizing s with
  | nil => exact ⟨[], by simp, h, hposition, hn⟩
  | cons body outer ih =>
      have hread : s.read (.plain .rightBrace "\x7d" 0) =
          { s with body := .block s.body.reverse :: body, outer } := by
        simp [read_of_between hposition, Unfinished.readBetween, Token.plain, hn]
      have hkind : (Token.plain .rightBrace "\x7d" 0).kind ≠ .eof := by simp [Token.plain]
      apply Completable.of_read hkind
      rw [hread]
      exact ih ⟨h.errors, h.position⟩ hposition rfl

variable {stmt : PartialStmt}

theorem Calm.completable_of_complete (h : s.Calm) (hposition : s.position = .within stmt)
    {token : Token} {result : Stmt} (hkind : token.kind ≠ .eof)
    (hread : (stmt.read token).2 = .complete result) : s.Completable := by
  apply Completable.of_read hkind
  rw [read_of_within hposition, readWithin_eq_of_complete hread]
  exact (h.mono (stmt.read_panics token) rfl (by simp)).completable_of_between rfl

theorem Calm.completable_of_more (h : s.Calm) (hposition : s.position = .within stmt)
    {token : Token} {next : PartialStmt} (hkind : token.kind ≠ .eof)
    (hread : (stmt.read token).2 = .more next)
    (hnext : ∀ t : Unfinished, t.Calm → t.position = .within next → t.Completable) :
    s.Completable := by
  apply Completable.of_read hkind
  rw [read_of_within hposition, readWithin_eq_of_more hread]
  exact hnext _ (h.mono (stmt.read_panics token) rfl (by simp)) rfl

/-- Behind an operand the innermost parenthesis is closed, or the statement if there is none. -/
theorem Calm.completable_of_ready (h : s.Calm) {clause : Clause} {operand : Operand}
    (hposition : s.position = .within (.ready clause operand)) : s.Completable := by
  generalize hn : operand.frames.length = n
  induction n using Nat.strongRecOn generalizing s operand with
  | _ n ih =>
      rcases Operand.close_frames_eq_nil_or [] operand.frames operand.expr with hnil | ⟨rest, hgroup⟩
      · have hread : ((PartialStmt.ready clause operand).read (.plain .semicolon ";" 0)).2 =
            .complete (clause.complete (Operand.close [] operand.frames operand.expr).2.expr) := by
          rw [PartialStmt.read_ready_of_closing rfl (by simp [Token.plain])]
          simp [PartialStmt.readClosing, hnil, Token.plain]
        exact h.completable_of_complete hposition (by simp [Token.plain]) hread
      · have hread : ((PartialStmt.ready clause operand).read (.plain .rightParen ")" 0)).2 =
            .more (.ready clause (.applyUnary rest
              (.group (Operand.close [] operand.frames operand.expr).2.expr))) := by
          rw [PartialStmt.read_ready_of_closing rfl (by simp [Token.plain])]
          simp [PartialStmt.readClosing, hgroup, Token.plain]
        have hclose := (Operand.close_frames_suffix [] operand.frames operand.expr).length_le
        rw [hgroup, List.length_cons] at hclose
        apply h.completable_of_more hposition (by simp [Token.plain]) hread
        intro t ht hwithin
        have happly := (Operand.applyUnary_frames_suffix rest
          (.group (Operand.close [] operand.frames operand.expr).2.expr)).length_le
        exact ih _ (by omega) ht hwithin rfl

theorem Calm.completable_of_waiting (h : s.Calm) {clause : Clause} {frames : List Frame}
    (hposition : s.position = .within (.waiting clause frames)) : s.Completable := by
  have hnil : (Token.plain (.keyword .nilWord) "nil" 0).Denotes (.literal .nil) := .nothing rfl
  have hread := PartialStmt.read_waiting_of_denotes hnil clause frames
  apply h.completable_of_more hposition (by simp [Token.plain]) (congrArg Prod.snd hread)
  intro t ht hwithin
  exact ht.completable_of_ready hwithin

theorem Calm.completable_of_named (h : s.Calm) {name : Token}
    (hposition : s.position = .within (.named name)) : s.Completable := by
  have hread : ((PartialStmt.named name).read (.plain .semicolon ";" 0)).2 =
      .complete (.declare name none) := rfl
  exact h.completable_of_complete hposition (by simp [Token.plain]) hread

theorem Calm.completable_of_unnamed (h : s.Calm)
    (hposition : s.position = .within .unnamed) : s.Completable := by
  have hread : (PartialStmt.unnamed.read (.plain .identifier "x" 0)).2 =
      .more (.named (.plain .identifier "x" 0)) := rfl
  apply h.completable_of_more hposition (by simp [Token.plain]) hread
  intro t ht hwithin
  exact ht.completable_of_named hwithin

/-- A calm reader has read the start of a program. -/
theorem Calm.completable (h : s.Calm) : s.Completable := by
  cases hposition : s.position with
  | between => exact h.completable_of_between hposition
  | within stmt =>
      cases stmt with
      | unnamed => exact h.completable_of_unnamed hposition
      | named name => exact h.completable_of_named hposition
      | waiting clause frames => exact h.completable_of_waiting hposition
      | ready clause operand => exact h.completable_of_ready hposition
  | skipping => exact absurd hposition h.position

theorem Calm.finish_panics (h : s.Calm) (hrest : s.AtRest) (ending : Token) :
    ∀ error ∈ (s.finish ending).errors, error.panics = false := by
  intro error herror
  rw [hrest.finish] at herror
  exact h.errors error (List.mem_reverse.mp herror)

end Unfinished

namespace Parsed

/-- Some tokens behind the given ones make a program in which no statement is broken off. -/
theorem exists_completion {front : List Token} (hfront : ∀ token ∈ front, token.kind ≠ .eof)
    (h : (front.foldl Unfinished.read .start).Calm) :
    ∃ completion : List Token, ∀ stop : Token, stop.kind = .eof →
      ∀ error ∈ (ofTokens (front ++ completion ++ [stop])).errors, error.panics = false := by
  obtain ⟨completion, hkind, hcalm, hrest⟩ := h.completable
  refine ⟨completion, ?_⟩
  intro stop hstop
  rw [ofTokens_append_end (List.forall_mem_append.mpr ⟨hfront, hkind⟩) hstop, List.foldl_append]
  exact hcalm.finish_panics hrest stop

/-- An error at a token stays the first one, whatever stands behind the token. -/
theorem panic?_of_read {front : List Token} (hfront : ∀ token ∈ front, token.kind ≠ .eof)
    {token : Token} (hkind : token.kind ≠ .eof) {error : SyntaxError}
    (h : ((front.foldl Unfinished.read .start).read token).panic? = some error)
    (rest : List Token) {stop : Token} (hstop : stop.kind = .eof) :
    (ofTokens (front ++ [token] ++ rest ++ [stop])).panic? = some error := by
  obtain ⟨more, first, after, hsplit, hmore, hfirst⟩ := exists_eq_foldl_finish rest hstop
  have hread : ∀ t ∈ front ++ [token] ++ more, t.kind ≠ .eof := by
    simp only [List.forall_mem_append, List.forall_mem_singleton]
    exact ⟨⟨hfront, hkind⟩, hmore⟩
  rw [List.append_assoc, hsplit, ← List.append_assoc, ofTokens_append_end hread hfirst,
    List.foldl_append, List.foldl_append]
  exact Unfinished.panic?_finish (Unfinished.panic?_foldl_read h more) first

/-- The first error that breaks a statement off stands at the first token where no program can
have it: the tokens in front can be completed, and with that token they cannot. -/
theorem panic?_earliest {tokens : List Token} {ending : Token} (hending : ending.kind = .eof)
    {error : SyntaxError} (h : (ofTokens (tokens ++ [ending])).panic? = some error) :
    ∃ front rest, tokens ++ [ending] = front ++ error.token :: rest ∧
      (∀ token ∈ front, token.kind ≠ .eof) ∧
      (∃ completion : List Token, ∀ stop : Token, stop.kind = .eof →
        ∀ other ∈ (ofTokens (front ++ completion ++ [stop])).errors, other.panics = false) ∧
      (error.token.kind ≠ .eof → ∀ (later : List Token) (stop : Token), stop.kind = .eof →
        (ofTokens (front ++ [error.token] ++ later ++ [stop])).panic? = some error) ∧
      (error.token.kind = .eof → (ofTokens (front ++ [error.token])).panic? = some error) := by
  obtain ⟨front, first, rest, hsplit, hfront, hfirst⟩ := exists_eq_foldl_finish tokens hending
  rw [hsplit, ofTokens_append_end hfront hfirst] at h
  rcases Unfinished.calm_start.foldl_read front with
    hcalm | ⟨before, token, after, fault, rfl, hcalm, hpanic⟩
  · rcases hcalm.finish hfirst with hrest | ⟨fault, hpanic⟩
    · have hnone : ((front.foldl Unfinished.read .start).finish first).panic? = none :=
        find?_panics_eq_none_iff.mpr (hcalm.finish_panics hrest first)
      simp [h] at hnone
    · obtain rfl : error = ⟨first, fault⟩ := Option.some.inj (h.symm.trans hpanic)
      refine ⟨front, rest, hsplit, hfront, exists_completion hfront hcalm, ?_, ?_⟩
      · intro hkind
        exact absurd hfirst hkind
      · intro _
        rw [ofTokens_append_end hfront hfirst]
        exact hpanic
  · obtain ⟨hbefore, hafter⟩ := List.forall_mem_append.mp hfront
    have hkind := hafter token List.mem_cons_self
    have hlater := Unfinished.panic?_finish (Unfinished.panic?_foldl_read hpanic after) first
    rw [List.foldl_append, List.foldl_cons] at h
    obtain rfl : error = ⟨token, fault⟩ := Option.some.inj (h.symm.trans hlater)
    refine ⟨before, after ++ first :: rest, ?_, hbefore, exists_completion hbefore hcalm, ?_, ?_⟩
    · rw [hsplit, List.append_assoc, List.cons_append]
    · intro _ later stop hstop
      exact panic?_of_read hbefore hkind hpanic later hstop
    · intro hend
      exact absurd hend hkind

/-- In `nil = nil);` the equals sign is an error too, but breaks nothing off. -/
theorem panic?_earliest_closing :
    (ofTokens ([.plain (.keyword .nilWord) "nil" 1, .plain .equal "=" 1,
        .plain (.keyword .nilWord) "nil" 1, .plain .rightParen ")" 1, .plain .semicolon ";" 1] ++
      [.endOfInput 1])).panic? = some ⟨.plain .rightParen ")" 1, .unendedExpression⟩ ∧
    ∃ front rest, [.plain (.keyword .nilWord) "nil" 1, .plain .equal "=" 1,
        .plain (.keyword .nilWord) "nil" 1, .plain .rightParen ")" 1, .plain .semicolon ";" 1] ++
      [.endOfInput 1] = front ++ .plain .rightParen ")" 1 :: rest ∧
      ∃ completion : List Token, ∀ stop : Token, stop.kind = .eof →
        ∀ other ∈ (ofTokens (front ++ completion ++ [stop])).errors, other.panics = false := by
  have hend : (Token.endOfInput 1).kind = .eof := rfl
  have hpanic : (ofTokens ([.plain (.keyword .nilWord) "nil" 1, .plain .equal "=" 1,
        .plain (.keyword .nilWord) "nil" 1, .plain .rightParen ")" 1, .plain .semicolon ";" 1] ++
      [.endOfInput 1])).panic? = some ⟨.plain .rightParen ")" 1, .unendedExpression⟩ := rfl
  obtain ⟨front, rest, hsplit, -, hcompletion, -⟩ := Parsed.panic?_earliest hend hpanic
  exact ⟨hpanic, front, rest, hsplit, hcompletion⟩

end Parsed

end Lox
