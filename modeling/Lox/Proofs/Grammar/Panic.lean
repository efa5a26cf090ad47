import Lox.Proofs.Grammar.Acceptance

/-!
# Errors that break a statement off

An invalid assignment target leaves its statement standing, any other error breaks it off. As long
as no statement has been broken off the reader is calm; the first token at which it no longer is
stays the first such error, whatever follows.
-/

namespace Lox

/-- All errors but an invalid assignment target break their statement off. -/
def SyntaxError.panics (error : SyntaxError) : Bool :=
  error.fault.message != "Invalid assignment target."

theorem SyntaxError.panics_mk {token : Token} {fault : SyntaxFault} (h : fault ≠ .badTarget) :
    (SyntaxError.mk token fault).panics = true := by
  cases fault with
  | badTarget => exact absurd rfl h
  | _ => rfl

theorem find?_panics_eq_none_iff {errors : List SyntaxError} :
    errors.find? SyntaxError.panics = none ↔ ∀ error ∈ errors, error.panics = false := by
  simp

/-- The first error that breaks a statement off. -/
def Parsed.panic? (parsed : Parsed) : Option SyntaxError := parsed.errors.find? SyntaxError.panics

/-! ## Partial statements -/

theorem Frame.errors_panics (frame : Frame) : ∀ error ∈ frame.errors, error.panics = false := by
  cases frame with
  | misplaced equals left => simp [errors, SyntaxError.panics, SyntaxFault.message]
  | group | unary | binary | assign => simp [errors]

theorem Operand.close_panics {errors : List SyntaxError}
    (h : ∀ error ∈ errors, error.panics = false) (frames : List Frame) (e : Expr) :
    ∀ error ∈ (close errors frames e).1, error.panics = false := by
  induction frames generalizing errors e with
  | nil => exact h
  | cons frame frames ih =>
      by_cases hgroup : frame = .group
      · rw [hgroup]
        exact h
      · rw [close_cons hgroup]
        apply ih
        intro error herror
        rcases List.mem_append.mp herror with herror | herror
        · exact frame.errors_panics error herror
        · exact h error herror

namespace PartialStmt

variable {stmt : PartialStmt} {token : Token}

theorem read_panics (stmt : PartialStmt) (token : Token) :
    ∀ error ∈ (stmt.read token).1, error.panics = false := by
  cases stmt with
  | unnamed =>
      rw [PartialStmt.read]
      split <;> simp
  | named =>
      unfold PartialStmt.read
      dsimp only
      split <;> simp
  | waiting clause frames => simp [PartialStmt.read]
  | ready clause operand =>
      by_cases hlevel : token.kind.precedence = 0
      · by_cases hequal : token.kind = .equal
        · simp [read_ready_of_equal hequal]
        · rw [read_ready_of_closing hlevel hequal]
          exact Operand.close_panics (by simp) operand.frames operand.expr
      · simp [read_ready_of_binary (Kind.mem_operatorsAt_iff.mpr ⟨hlevel, rfl⟩)]

theorem readClosing_refuse {clause : Clause} {operand : Operand} {fault : SyntaxFault}
    (h : readClosing clause operand token = .refuse fault) : fault ≠ .badTarget := by
  rw [readClosing] at h
  split at h <;> cases h
  · simp
  · cases clause <;> simp [Clause.unended]

theorem read_refuse {fault : SyntaxFault} (h : (stmt.read token).2 = .refuse fault) :
    fault ≠ .badTarget := by
  cases stmt with
  | unnamed =>
      rw [PartialStmt.read] at h
      split at h <;> cases h
      simp
  | named =>
      unfold PartialStmt.read at h
      dsimp only at h
      split at h <;> cases h
      simp
  | waiting clause frames =>
      rw [PartialStmt.read, readOperand] at h
      split at h
      · cases h
      · cases h
      · cases h
      · split at h <;> cases h
        simp
  | ready clause operand =>
      by_cases hlevel : token.kind.precedence = 0
      · by_cases hequal : token.kind = .equal
        · simp [read_ready_of_equal hequal] at h
        · rw [read_ready_of_closing hlevel hequal] at h
          exact readClosing_refuse h
      · simp [read_ready_of_binary (Kind.mem_operatorsAt_iff.mpr ⟨hlevel, rfl⟩)] at h

end PartialStmt

/-! ## Calm readers -/

namespace Unfinished

variable {s : Unfinished} {token ending : Token}

/-- No statement has been broken off. -/
structure Calm (s : Unfinished) : Prop where
  errors : ∀ error ∈ s.errors, error.panics = false
  position : s.position ≠ .skipping

/-- The first error so far that breaks a statement off. -/
def panic? (s : Unfinished) : Option SyntaxError := s.errors.reverse.find? SyntaxError.panics

theorem calm_start : start.Calm := ⟨by simp [start], by simp [start]⟩

theorem Calm.panic?_eq_none (h : s.Calm) : s.panic? = none := by
  rw [panic?, find?_panics_eq_none_iff]
  intro error herror
  exact h.errors error (List.mem_reverse.mp herror)

theorem Calm.mono (h : s.Calm) {errors : List SyntaxError} {next : Unfinished}
    (herrors : ∀ error ∈ errors, error.panics = false) (heq : next.errors = errors ++ s.errors)
    (hposition : next.position ≠ .skipping) : next.Calm := by
  refine ⟨?_, hposition⟩
  intro error herror
  rw [heq] at herror
  rcases List.mem_append.mp herror with herror | herror
  · exact herrors error herror
  · exact h.errors error herror

theorem readWithin_eq_of_more {stmt next : PartialStmt} (h : (stmt.read token).2 = .more next)
    (s : Unfinished) : s.readWithin stmt token =
      { s with position := .within next, errors := (stmt.read token).1 ++ s.errors } := by
  simp [readWithin, h]

theorem readWithin_eq_of_complete {stmt : PartialStmt} {result : Stmt}
    (h : (stmt.read token).2 = .complete result) (s : Unfinished) : s.readWithin stmt token =
      { s with
        position := .between
        body := result :: s.body
        errors := (stmt.read token).1 ++ s.errors } := by
  simp [readWithin, h, add]

theorem readWithin_eq_of_refuse {stmt : PartialStmt} {fault : SyntaxFault}
    (h : (stmt.read token).2 = .refuse fault) (s : Unfinished) : s.readWithin stmt token =
      { s with
        position := if token.kind = .semicolon then .between else .skipping
        errors := ⟨token, fault⟩ :: ((stmt.read token).1 ++ s.errors) } := by
  simp [readWithin, h, refuse]

theorem Calm.readWithin_of_refuse (h : s.Calm) {stmt : PartialStmt} {fault : SyntaxFault}
    (hrefuse : (stmt.read token).2 = .refuse fault) :
    (s.readWithin stmt token).panic? = some ⟨token, fault⟩ := by
  have hearlier : ((stmt.read token).1 ++ s.errors).reverse.find? SyntaxError.panics = none := by
    rw [find?_panics_eq_none_iff]
    intro error herror
    rcases List.mem_append.mp (List.mem_reverse.mp herror) with herror | herror
    · exact stmt.read_panics token error herror
    · exact h.errors error herror
  rw [readWithin_eq_of_refuse hrefuse, panic?, List.reverse_cons, List.find?_append, hearlier]
  simp [SyntaxError.panics_mk (PartialStmt.read_refuse hrefuse)]

theorem Calm.readWithin (h : s.Calm) (stmt : PartialStmt) (token : Token) :
    (s.readWithin stmt token).Calm ∨
      ∃ fault, (s.readWithin stmt token).panic? = some ⟨token, fault⟩ := by
  have hpanics := stmt.read_panics token
  cases hreaction : (stmt.read token).2 with
  | more next =>
      rw [readWithin_eq_of_more hreaction]
      exact .inl (h.mono hpanics rfl (by simp))
  | complete result =>
      rw [readWithin_eq_of_complete hreaction]
      exact .inl (h.mono hpanics rfl (by simp))
  | refuse fault => exact .inr ⟨fault, h.readWithin_of_refuse hreaction⟩

theorem Calm.readBetween (h : s.Calm) (token : Token) :
    (s.readBetween token).Calm ∨ ∃ fault, (s.readBetween token).panic? = some ⟨token, fault⟩ := by
  rw [Unfinished.readBetween]
  split
  · exact .inl ⟨h.errors, by simp⟩
  · exact .inl ⟨h.errors, by simp⟩
  · exact .inl ⟨h.errors, h.position⟩
  · exact .inl ⟨h.errors, h.position⟩
  · exact h.readWithin _ token

/-- A calm reader stays calm or breaks the statement off at the token. -/
theorem Calm.read (h : s.Calm) (token : Token) :
    (s.read token).Calm ∨ ∃ fault, (s.read token).panic? = some ⟨token, fault⟩ := by
  cases hposition : s.position with
  | between =>
      rw [read_of_between hposition]
      exact h.readBetween token
  | within stmt =>
      rw [read_of_within hposition]
      exact h.readWithin stmt token
  | skipping => exact absurd hposition h.position

/-! ## The first error stays the first -/

theorem readWithin_errors_suffix (s : Unfinished) (stmt : PartialStmt) (token : Token) :
    s.errors <:+ (s.readWithin stmt token).errors := by
  cases hreaction : (stmt.read token).2 with
  | more next =>
      rw [readWithin_eq_of_more hreaction]
      exact List.suffix_append _ _
  | complete result =>
      rw [readWithin_eq_of_complete hreaction]
      exact List.suffix_append _ _
  | refuse fault =>
      rw [readWithin_eq_of_refuse hreaction]
      exact (List.suffix_append _ _).trans (List.suffix_cons _ _)

theorem readBetween_errors_suffix (s : Unfinished) (token : Token) :
    s.errors <:+ (s.readBetween token).errors := by
  rw [Unfinished.readBetween]
  split
  · exact List.suffix_rfl
  · exact List.suffix_rfl
  · exact List.suffix_rfl
  · exact List.suffix_rfl
  · exact readWithin_errors_suffix s _ token

theorem read_errors_suffix (s : Unfinished) (token : Token) :
    s.errors <:+ (s.read token).errors := by
  rw [Unfinished.read]
  split
  · exact readBetween_errors_suffix s token
  · exact readWithin_errors_suffix s _ token
  · split
    · exact List.suffix_rfl
    · split
      · exact readBetween_errors_suffix { s with position := .between } token
      · exact List.suffix_rfl

theorem foldl_read_errors_suffix (tokens : List Token) (s : Unfinished) :
    s.errors <:+ (tokens.foldl read s).errors := by
  induction tokens generalizing s with
  | nil => exact List.suffix_rfl
  | cons token tokens ih => exact (read_errors_suffix s token).trans (ih (s.read token))

theorem reverse_errors_finish (s : Unfinished) (ending : Token) :
    s.errors.reverse <+: (s.finish ending).errors := by
  unfold finish
  split
  next stmt hposition =>
    have hsuffix := readWithin_errors_suffix s stmt ending
    exact (List.reverse_prefix.mpr hsuffix).trans (List.prefix_append _ _)
  · exact List.prefix_append _ _
  · exact List.prefix_append _ _

theorem find?_of_front {front all : List SyntaxError} {error : SyntaxError}
    (hfront : front <+: all) (h : front.find? SyntaxError.panics = some error) :
    all.find? SyntaxError.panics = some error := by
  obtain ⟨rest, rfl⟩ := hfront
  rw [List.find?_append, h]
  rfl

theorem panic?_foldl_read {error : SyntaxError} (h : s.panic? = some error)
    (tokens : List Token) : (tokens.foldl read s).panic? = some error :=
  find?_of_front (List.reverse_prefix.mpr (foldl_read_errors_suffix tokens s)) h

theorem panic?_finish {error : SyntaxError} (h : s.panic? = some error) (ending : Token) :
    (s.finish ending).panic? = some error :=
  find?_of_front (reverse_errors_finish s ending) h

/-! ## Runs -/

/-- Tokens are read calmly, or up to the first that breaks a statement off. -/
theorem Calm.foldl_read (h : s.Calm) (tokens : List Token) :
    (tokens.foldl Unfinished.read s).Calm ∨
      ∃ front token rest fault, tokens = front ++ token :: rest ∧
        (front.foldl Unfinished.read s).Calm ∧
        ((front.foldl Unfinished.read s).read token).panic? = some ⟨token, fault⟩ := by
  induction tokens generalizing s with
  | nil => exact .inl h
  | cons token tokens ih =>
      rcases h.read token with hcalm | ⟨fault, hpanic⟩
      · rcases ih hcalm with hrest | ⟨front, next, rest, fault, rfl, hfront, hpanic⟩
        · exact .inl hrest
        · exact .inr ⟨token :: front, next, rest, fault, rfl, hfront, hpanic⟩
      · exact .inr ⟨[], token, tokens, fault, rfl, h, hpanic⟩

/-- Outside of all statements and blocks, where the end of input is allowed. -/
def AtRest (s : Unfinished) : Prop := s.position = .between ∧ s.outer = []

theorem AtRest.finish (h : s.AtRest) (ending : Token) :
    s.finish ending = { program := s.body.reverse, errors := s.errors.reverse } := by
  simp [Unfinished.finish, h.1, h.2]

/-- Behind tokens that are read calmly the end of input is an error unless the reader is at
rest. -/
theorem Calm.finish (h : s.Calm) (hending : ending.kind = .eof) :
    s.AtRest ∨ ∃ fault, (s.finish ending).panic? = some ⟨ending, fault⟩ := by
  cases hposition : s.position with
  | between =>
      cases houter : s.outer with
      | nil => exact .inl ⟨hposition, houter⟩
      | cons body outer =>
          have hnone := h.panic?_eq_none
          rw [panic?] at hnone
          refine .inr ⟨.unclosedBlock, ?_⟩
          simp only [Unfinished.finish, hposition, houter, Parsed.panic?]
          rw [List.find?_append, hnone]
          rfl
  | within stmt =>
      obtain ⟨fault, hrefuse⟩ := stmt.read_end hending
      refine .inr ⟨fault, ?_⟩
      have hpanic := h.readWithin_of_refuse hrefuse
      have hfront : (s.readWithin stmt ending).errors.reverse <+: (s.finish ending).errors := by
        simp only [Unfinished.finish, hposition]
        exact List.prefix_append _ _
      exact find?_of_front hfront hpanic
  | skipping => exact absurd hposition h.position

end Unfinished

end Lox
