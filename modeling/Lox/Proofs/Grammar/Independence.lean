import Lox.Proofs.Grammar.Panic
import Lox.Proofs.Relining.Reading

/-!
# Statements behind other statements

What has been read leaves no trace in how the next statement is read: behind tokens that leave the
reader at rest, further tokens give the same statements and errors as they do by themselves.
-/

namespace Lox

namespace Unfinished

/-- Two stacks of open blocks, the second with an earlier program in front of the first. -/
inductive Above (program : List Stmt) :
    List Stmt → List (List Stmt) → List Stmt → List (List Stmt) → Prop
  | bottom (body : List Stmt) : Above program body [] (body ++ program) []
  | block (inner : List Stmt) {body behind : List Stmt} {outer outerBehind : List (List Stmt)}
      (h : Above program body outer behind outerBehind) :
      Above program inner (body :: outer) inner (behind :: outerBehind)

/-- A reader that differs from another one by what it had read before. -/
structure Behind (earlier : Parsed) (s later : Unfinished) : Prop where
  position : later.position = s.position
  blocks : Above earlier.program.reverse s.body s.outer later.body later.outer
  errors : later.errors = s.errors ++ earlier.errors.reverse

namespace Above

variable {program body behind : List Stmt} {outer outerBehind : List (List Stmt)}

theorem add (h : Above program body outer behind outerBehind) (stmt : Stmt) :
    Above program (stmt :: body) outer (stmt :: behind) outerBehind := by
  cases h with
  | bottom => exact .bottom (stmt :: body)
  | block _ h => exact .block (stmt :: body) h

theorem length_eq (h : Above program body outer behind outerBehind) :
    outerBehind.length = outer.length := by
  induction h with
  | bottom => rfl
  | block _ _ ih => simp [ih]

theorem getLast_eq (h : Above program body outer behind outerBehind) :
    outerBehind.getLast?.getD behind = outer.getLast?.getD body ++ program := by
  induction h with
  | bottom => rfl
  | block inner _ ih => simpa [List.getLast?_cons] using ih

end Above

namespace Behind

variable {earlier : Parsed} {s later : Unfinished}

theorem readWithin (h : Behind earlier s later) (stmt : PartialStmt) (token : Token) :
    Behind earlier (s.readWithin stmt token) (later.readWithin stmt token) := by
  have herrors : (stmt.read token).1 ++ later.errors =
      (stmt.read token).1 ++ s.errors ++ earlier.errors.reverse := by
    rw [h.errors, List.append_assoc]
  cases hreaction : (stmt.read token).2 with
  | more next =>
      rw [readWithin_eq_of_more hreaction, readWithin_eq_of_more hreaction]
      exact ⟨rfl, h.blocks, herrors⟩
  | complete result =>
      rw [readWithin_eq_of_complete hreaction, readWithin_eq_of_complete hreaction]
      exact ⟨rfl, h.blocks.add result, herrors⟩
  | refuse fault =>
      rw [readWithin_eq_of_refuse hreaction, readWithin_eq_of_refuse hreaction]
      exact ⟨rfl, h.blocks, congrArg (⟨token, fault⟩ :: ·) herrors⟩

/-- A closing brace is read alike, since as many blocks are open in both readers. -/
theorem readBetween (h : Behind earlier s later) (token : Token) :
    Behind earlier (s.readBetween token) (later.readBetween token) := by
  have hblocks := h.blocks
  have hwithin := h.readWithin (.waiting .expression []) token
  obtain ⟨position, body, outer, errors⟩ := s
  obtain ⟨positionBehind, behind, outerBehind, errorsBehind⟩ := later
  obtain ⟨hposition, -, herrors⟩ := h
  dsimp only at hblocks hposition herrors
  unfold Unfinished.readBetween
  cases token.kind with
  | leftBrace => exact ⟨hposition, .block [] hblocks, herrors⟩
  | rightBrace =>
      cases hblocks with
      | bottom => exact hwithin
      | block _ hblocks => exact ⟨hposition, hblocks.add _, herrors⟩
  | keyword word =>
      cases word with
      | varWord | printWord => exact ⟨rfl, hblocks, herrors⟩
      | _ => exact hwithin
  | _ => exact hwithin

theorem read (h : Behind earlier s later) (token : Token) :
    Behind earlier (s.read token) (later.read token) := by
  cases hposition : s.position with
  | between =>
      rw [read_of_between hposition, read_of_between (h.position.trans hposition)]
      exact h.readBetween token
  | within stmt =>
      rw [read_of_within hposition, read_of_within (h.position.trans hposition)]
      exact h.readWithin stmt token
  | skipping =>
      have hbetween : Behind earlier { s with position := .between }
          { later with position := .between } := ⟨rfl, h.blocks, h.errors⟩
      simp only [Unfinished.read, hposition, h.position.trans hposition]
      split
      · exact hbetween
      · split
        · exact hbetween.readBetween token
        · exact h

theorem foldl_read (h : Behind earlier s later) (tokens : List Token) :
    Behind earlier (tokens.foldl Unfinished.read s) (tokens.foldl Unfinished.read later) := by
  induction tokens generalizing s later with
  | nil => exact h
  | cons token tokens ih => exact ih (h.read token)

theorem result (h : Behind earlier s later) (ending : Token) :
    later.result ending =
      { program := earlier.program ++ (s.result ending).program
        errors := earlier.errors ++ (s.result ending).errors } := by
  have hunclosed : later.outer.map (fun _ ↦ SyntaxError.mk ending .unclosedBlock) =
      s.outer.map fun _ ↦ ⟨ending, .unclosedBlock⟩ := by
    rw [List.map_const', List.map_const', h.blocks.length_eq]
  simp [Unfinished.result, h.blocks.getLast_eq, h.errors, hunclosed]

theorem finish (h : Behind earlier s later) (ending : Token) :
    later.finish ending =
      { program := earlier.program ++ (s.finish ending).program
        errors := earlier.errors ++ (s.finish ending).errors } := by
  cases hposition : s.position with
  | between | skipping =>
      simp only [Unfinished.finish, hposition, h.position.trans hposition]
      exact h.result ending
  | within stmt =>
      simp only [Unfinished.finish, hposition, h.position.trans hposition]
      exact (h.readWithin stmt ending).result ending

end Behind

/-- A reader at rest reads on as one that starts. -/
theorem AtRest.behind_start {s : Unfinished} (h : s.AtRest) (ending : Token) :
    Behind (s.finish ending) start s := by
  rw [h.finish ending]
  refine ⟨h.1, ?_, by simp [start]⟩
  rw [h.2]
  simpa [start] using Above.bottom []

/-! ## When the reader is at rest -/

theorem readClosing_semicolon {token : Token} (h : token.kind = .semicolon) (clause : Clause)
    (operand : Operand) : ∀ next, PartialStmt.readClosing clause operand token ≠ .more next := by
  intro next
  rw [PartialStmt.readClosing]
  split
  next hkind => simp [h] at hkind
  all_goals simp

/-- No statement goes on behind a semicolon. -/
theorem read_semicolon {token : Token} (h : token.kind = .semicolon) (stmt : PartialStmt) :
    ∀ next, (stmt.read token).2 ≠ .more next := by
  intro next
  cases stmt with
  | unnamed => simp [PartialStmt.read, h]
  | named => simp [PartialStmt.read, h]
  | waiting => simp [PartialStmt.read, PartialStmt.readOperand, Token.operand?, h]
  | ready clause operand =>
      rw [PartialStmt.read_ready_of_closing (by simp [h, Kind.precedence]) (by simp [h])]
      exact readClosing_semicolon h clause _ next

theorem readWithin_semicolon {token : Token} (h : token.kind = .semicolon) (s : Unfinished)
    (stmt : PartialStmt) : (s.readWithin stmt token).position = .between := by
  cases hreaction : (stmt.read token).2 with
  | more next => exact absurd hreaction (read_semicolon h stmt next)
  | complete result => rw [readWithin_eq_of_complete hreaction]
  | refuse fault => simp [readWithin_eq_of_refuse hreaction, h]

theorem read_semicolon_position {token : Token} (h : token.kind = .semicolon) (s : Unfinished) :
    (s.read token).position = .between := by
  cases hposition : s.position with
  | between =>
      rw [read_of_between hposition, readBetween]
      simpa [h] using readWithin_semicolon h s (.waiting .expression [])
  | within stmt =>
      rw [read_of_within hposition]
      exact readWithin_semicolon h s stmt
  | skipping => simp [Unfinished.read, hposition, h]

theorem readWithin_outer (s : Unfinished) (stmt : PartialStmt) (token : Token) :
    (s.readWithin stmt token).outer = s.outer := by
  cases hreaction : (stmt.read token).2 with
  | more next => rw [readWithin_eq_of_more hreaction]
  | complete result => rw [readWithin_eq_of_complete hreaction]
  | refuse fault => rw [readWithin_eq_of_refuse hreaction]

theorem readBetween_outer_eq_nil {s : Unfinished} {token : Token} (h : s.outer = [])
    (hkind : token.kind ≠ .leftBrace) : (s.readBetween token).outer = [] := by
  rw [readBetween]
  split
  · exact h
  · exact h
  next hbrace => exact absurd hbrace hkind
  next houter => simp [h] at houter
  · rw [readWithin_outer, h]

/-- Only a brace opens a block. -/
theorem read_outer_eq_nil {s : Unfinished} {token : Token} (h : s.outer = [])
    (hkind : token.kind ≠ .leftBrace) : (s.read token).outer = [] := by
  rw [Unfinished.read]
  split
  · exact readBetween_outer_eq_nil h hkind
  · rw [readWithin_outer, h]
  · split
    · exact h
    · split
      · exact readBetween_outer_eq_nil (s := { s with position := .between }) h hkind
      · exact h

theorem foldl_read_outer_eq_nil {s : Unfinished} {tokens : List Token} (h : s.outer = [])
    (hkind : ∀ token ∈ tokens, token.kind ≠ .leftBrace) :
    (tokens.foldl Unfinished.read s).outer = [] := by
  induction tokens generalizing s with
  | nil => exact h
  | cons token tokens ih =>
      obtain ⟨htoken, htokens⟩ := List.forall_mem_cons.mp hkind
      exact ih (read_outer_eq_nil h htoken) htokens

theorem atRest_of_semicolon {tokens : List Token}
    (hkind : ∀ token ∈ tokens, token.kind ≠ .leftBrace)
    (hlast : ∀ last ∈ tokens.getLast?, last.kind = .semicolon) :
    (tokens.foldl Unfinished.read start).AtRest := by
  refine ⟨?_, foldl_read_outer_eq_nil rfl hkind⟩
  rcases List.eq_nil_or_concat tokens with rfl | ⟨front, last, rfl⟩
  · rfl
  · rw [List.concat_eq_append] at hlast ⊢
    rw [List.foldl_append]
    exact read_semicolon_position (hlast last (by simp)) _

theorem atRest_of_no_panic {tokens : List Token} {stop : Token} (hstop : stop.kind = .eof)
    (h : ∀ error ∈ ((tokens.foldl Unfinished.read start).finish stop).errors,
      error.panics = false) : (tokens.foldl Unfinished.read start).AtRest := by
  have hnone : ((tokens.foldl Unfinished.read start).finish stop).panic? = none :=
    find?_panics_eq_none_iff.mpr h
  rcases calm_start.foldl_read tokens with hcalm | ⟨front, token, rest, fault, rfl, -, hpanic⟩
  · rcases hcalm.finish hstop with hrest | ⟨fault, hpanic⟩
    · exact hrest
    · simp [hpanic] at hnone
  · have hlater := panic?_finish (panic?_foldl_read hpanic rest) stop
    rw [List.foldl_append, List.foldl_cons] at hnone
    simp [hlater] at hnone

end Unfinished

/-! ## Two lists of tokens -/

theorem Parsed.exists_eq_foldl_finish (b : List Token) {ending : Token}
    (hending : ending.kind = .eof) :
    ∃ front stop rest, b ++ [ending] = front ++ stop :: rest ∧
      (∀ token ∈ front, token.kind ≠ .eof) ∧ stop.kind = .eof := by
  have hsome : (b ++ [ending]).find? Token.isEnd ≠ none := by
    simp [Token.isEnd, hending]
  obtain ⟨stop, hstop⟩ := Option.ne_none_iff_exists'.mp hsome
  obtain ⟨hend, front, rest, hsplit, hfront⟩ := List.find?_eq_some_iff_append.mp hstop
  refine ⟨front, stop, rest, hsplit, ?_, ?_⟩
  · intro token htoken
    simpa [Token.isEnd] using hfront token htoken
  · simpa [Token.isEnd] using hend

/-- Tokens that are read without breaking a statement off, or that end in a semicolon and open no
block, do not change how the tokens behind them are read: statements and errors are those of both
parts in a row. -/
theorem Parsed.ofTokens_append {a b : List Token} {stop ending : Token}
    (ha : ∀ token ∈ a, token.kind ≠ .eof) (hstop : stop.kind = .eof) (hending : ending.kind = .eof)
    (h : (∀ error ∈ (ofTokens (a ++ [stop])).errors, error.panics = false) ∨
      (∀ token ∈ a, token.kind ≠ .leftBrace) ∧ ∀ last ∈ a.getLast?, last.kind = .semicolon) :
    ofTokens (a ++ (b ++ [ending])) =
      { program := (ofTokens (a ++ [stop])).program ++ (ofTokens (b ++ [ending])).program
        errors := (ofTokens (a ++ [stop])).errors ++ (ofTokens (b ++ [ending])).errors } := by
  obtain ⟨front, first, rest, hsplit, hfront, hfirst⟩ := exists_eq_foldl_finish b hending
  have hboth : ∀ token ∈ a ++ front, token.kind ≠ .eof :=
    List.forall_mem_append.mpr ⟨ha, hfront⟩
  rw [ofTokens_append_end ha hstop [], hsplit, ofTokens_append_end hfront hfirst rest,
    ← List.append_assoc, ofTokens_append_end hboth hfirst rest, List.foldl_append]
  rw [ofTokens_append_end ha hstop []] at h
  have hrest : (a.foldl Unfinished.read .start).AtRest := by
    rcases h with hcalm | ⟨hkind, hlast⟩
    · exact Unfinished.atRest_of_no_panic hstop hcalm
    · exact Unfinished.atRest_of_semicolon hkind hlast
  exact ((hrest.behind_start stop).foldl_read front).finish first

/-- The tokens of `print + ;` in front of those of `nil;`. -/
theorem Parsed.nil_behind_broken_print :
    (∀ token ∈ [Token.plain (.keyword .printWord) "print" 1, .plain .plus "+" 1,
        .plain .semicolon ";" 1], token.kind ≠ .eof) ∧
    ((∀ token ∈ [Token.plain (.keyword .printWord) "print" 1, .plain .plus "+" 1,
        .plain .semicolon ";" 1], token.kind ≠ .leftBrace) ∧
      ∀ last ∈ [Token.plain (.keyword .printWord) "print" 1, .plain .plus "+" 1,
        .plain .semicolon ";" 1].getLast?, last.kind = .semicolon) ∧
    ofTokens ([.plain (.keyword .printWord) "print" 1, .plain .plus "+" 1,
        .plain .semicolon ";" 1] ++
      ([.plain (.keyword .nilWord) "nil" 2, .plain .semicolon ";" 2] ++ [.endOfInput 2])) =
      { program := [.expression (.literal .nil)]
        errors := [⟨.plain .plus "+" 1, .missingOperand⟩] } := by
  have hkind : ∀ token ∈ [Token.plain (.keyword .printWord) "print" 1, .plain .plus "+" 1,
      .plain .semicolon ";" 1], token.kind ≠ .eof := by
    decide
  have hclosed : (∀ token ∈ [Token.plain (.keyword .printWord) "print" 1, .plain .plus "+" 1,
      .plain .semicolon ";" 1], token.kind ≠ .leftBrace) ∧
      ∀ last ∈ [Token.plain (.keyword .printWord) "print" 1, .plain .plus "+" 1,
        .plain .semicolon ";" 1].getLast?, last.kind = .semicolon := by
    decide
  have hend (line : Nat) : (Token.endOfInput line).kind = .eof := rfl
  refine ⟨hkind, hclosed, ?_⟩
  rw [Parsed.ofTokens_append hkind (hend 1) (hend 2) (.inr hclosed)]
  rfl

end Lox
