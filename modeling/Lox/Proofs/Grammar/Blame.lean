import Lox.Proofs.Grammar.Reading

/-!
# Errors stay

An error that has come to light stays, and a frame that hides one keeps it until it does.
-/

namespace Lox

namespace Operand

variable {frame : Frame} {frames outer : List Frame}

/-- No unary operator hides an error, so such a frame stays, and all around it. -/
theorem suffix_applyUnary (hsuffix : frame :: outer <:+ frames) (h : frame.errors ≠ [])
    (e : Expr) : frame :: outer <:+ (applyUnary frames e).frames := by
  induction frames generalizing e with
  | nil => exact hsuffix
  | cons top rest ih =>
      unfold applyUnary
      split
      next heq =>
        obtain ⟨rfl, rfl⟩ := List.cons.inj heq
        rcases List.suffix_cons_iff.mp hsuffix with heq | hsuffix
        · obtain ⟨rfl, -⟩ := List.cons.inj heq
          exact absurd rfl h
        · exact ih hsuffix _
      · exact hsuffix

theorem mem_applyUnary (hmem : frame ∈ frames) (h : frame.errors ≠ []) (e : Expr) :
    frame ∈ (applyUnary frames e).frames := by
  obtain ⟨inner, outer, rfl⟩ := List.append_of_mem hmem
  exact (suffix_applyUnary (List.suffix_append _ _) h e).subset List.mem_cons_self

theorem suffix_applyBinary (hsuffix : frame :: outer <:+ frames) (h : frame.errors ≠ [])
    (level : Nat) (e : Expr) : frame :: outer <:+ (applyBinary level frames e).frames := by
  induction frames generalizing e with
  | nil => exact hsuffix
  | cons top rest ih =>
      unfold applyBinary
      split
      next heq =>
        obtain ⟨rfl, rfl⟩ := List.cons.inj heq
        split
        · rcases List.suffix_cons_iff.mp hsuffix with heq | hsuffix
          · obtain ⟨rfl, -⟩ := List.cons.inj heq
            exact absurd rfl h
          · exact ih hsuffix _
        · exact hsuffix
      · exact hsuffix

theorem mem_applyBinary (hmem : frame ∈ frames) (h : frame.errors ≠ []) (level : Nat)
    (e : Expr) : frame ∈ (applyBinary level frames e).frames := by
  obtain ⟨inner, outer, rfl⟩ := List.append_of_mem hmem
  exact (suffix_applyBinary (List.suffix_append _ _) h level e).subset List.mem_cons_self

theorem close_cons {frame : Frame} (h : frame ≠ .group) (errors : List SyntaxError)
    (frames : List Frame) (e : Expr) :
    close errors (frame :: frames) e = close (frame.errors ++ errors) frames (frame.fill e) := by
  cases frame with
  | group => exact absurd rfl h
  | unary | binary | assign | misplaced => rfl

theorem close_ne_nil {errors : List SyntaxError} (h : errors ≠ []) (frames : List Frame)
    (e : Expr) : (close errors frames e).1 ≠ [] := by
  induction frames generalizing errors e with
  | nil => exact h
  | cons top rest ih =>
      by_cases hgroup : top = .group
      · rw [hgroup]
        exact h
      · rw [close_cons hgroup]
        exact ih (by simp [h]) _

/-- Closing ends at a parenthesis inside of the frame, or fills the frame on its way. -/
theorem suffix_close (hsuffix : frame :: outer <:+ frames) (errors : List SyntaxError)
    (e : Expr) :
    frame :: outer <:+ (close errors frames e).2.frames ∨
      ∃ earlier operand, close errors frames e =
        close (frame.errors ++ earlier) outer (frame.fill operand) := by
  induction frames generalizing errors e with
  | nil => exact .inl hsuffix
  | cons top rest ih =>
      by_cases hgroup : top = .group
      · rw [hgroup] at hsuffix ⊢
        exact .inl hsuffix
      · rw [close_cons hgroup]
        rcases List.suffix_cons_iff.mp hsuffix with heq | hsuffix
        · obtain ⟨rfl, rfl⟩ := List.cons.inj heq
          exact .inr ⟨errors, e, rfl⟩
        · exact ih hsuffix _ _

theorem mem_close (hmem : frame ∈ frames) (h : frame.errors ≠ []) (errors : List SyntaxError)
    (e : Expr) : (close errors frames e).1 ≠ [] ∨ frame ∈ (close errors frames e).2.frames := by
  obtain ⟨inner, outer, rfl⟩ := List.append_of_mem hmem
  rcases suffix_close (List.suffix_append inner (frame :: outer)) errors e with
    hsuffix | ⟨earlier, operand, hclose⟩
  · exact .inr (hsuffix.subset List.mem_cons_self)
  · rw [hclose]
    exact .inl (close_ne_nil (by simp [h]) _ _)

end Operand

namespace PartialStmt

def frames : PartialStmt → List Frame
  | unnamed | named _ => []
  | waiting _ frames => frames
  | ready _ operand => operand.frames

/-- Some frame hides an error. -/
def Faulty (stmt : PartialStmt) : Prop := ∃ frame ∈ stmt.frames, frame.errors ≠ []

/-- An error has come to light, or is still hidden. -/
def Blames (errors : List SyntaxError) : Reaction → Prop
  | .more stmt => errors ≠ [] ∨ stmt.Faulty
  | .complete _ => errors ≠ []
  | .refuse _ => True

theorem readOperand_blames {frames : List Frame} {frame : Frame} (hmem : frame ∈ frames)
    (h : frame.errors ≠ []) (clause : Clause) (token : Token) :
    Blames [] (readOperand clause frames token) := by
  rw [readOperand]
  split
  · exact .inr ⟨frame, List.mem_cons_of_mem _ hmem, h⟩
  · exact .inr ⟨frame, List.mem_cons_of_mem _ hmem, h⟩
  · exact .inr ⟨frame, List.mem_cons_of_mem _ hmem, h⟩
  · cases token.operand? with
    | none => trivial
    | some e => exact .inr ⟨frame, Operand.mem_applyUnary hmem h e, h⟩

theorem readClosing_blames {errors : List SyntaxError} {operand : Operand} {frame : Frame}
    (hmem : errors ≠ [] ∨ frame ∈ operand.frames) (h : frame.errors ≠ []) (clause : Clause)
    (token : Token) : Blames errors (readClosing clause operand token) := by
  rw [readClosing]
  split
  next outer hframes _ =>
    rcases hmem with herrors | hmem
    · exact .inl herrors
    · rw [hframes] at hmem
      rcases List.mem_cons.mp hmem with rfl | hmem
      · exact absurd rfl h
      · exact .inr ⟨frame, Operand.mem_applyUnary hmem h _, h⟩
  · trivial
  next hframes _ => exact hmem.resolve_right (by simp [hframes])
  · trivial

theorem readClosing_end {ending : Token} (h : ending.kind = .eof) (clause : Clause)
    (operand : Operand) : ∃ fault, readClosing clause operand ending = .refuse fault := by
  rw [readClosing]
  split
  next hkind => simp [h] at hkind
  · exact ⟨_, rfl⟩
  next hkind => simp [h] at hkind
  · exact ⟨_, rfl⟩

theorem read_end {ending : Token} (h : ending.kind = .eof) (stmt : PartialStmt) :
    ∃ fault, (stmt.read ending).2 = .refuse fault := by
  cases stmt with
  | unnamed => exact ⟨.missingName, by simp [PartialStmt.read, h]⟩
  | named => exact ⟨.unendedDeclaration, by simp [PartialStmt.read, h]⟩
  | waiting => exact ⟨.missingOperand, by simp [PartialStmt.read, readOperand, Token.operand?, h]⟩
  | ready clause operand =>
      rw [read_ready_of_closing (by simp [h, Kind.precedence]) (by simp [h])]
      exact readClosing_end h clause _

theorem Faulty.read {stmt : PartialStmt} (h : stmt.Faulty) (token : Token) :
    Blames (stmt.read token).1 (stmt.read token).2 := by
  obtain ⟨frame, hmem, hframe⟩ := h
  cases stmt with
  | unnamed | named => simp [frames] at hmem
  | waiting clause frames => exact readOperand_blames hmem hframe clause token
  | ready clause operand =>
      by_cases hlevel : token.kind.precedence = 0
      · by_cases hequal : token.kind = .equal
        · rw [read_ready_of_equal hequal]
          exact .inr ⟨frame, List.mem_cons_of_mem _ (Operand.mem_applyBinary hmem hframe 1 _),
            hframe⟩
        · rw [read_ready_of_closing hlevel hequal]
          exact readClosing_blames (Operand.mem_close hmem hframe [] _) hframe clause token
      · rw [read_ready_of_binary (Kind.mem_operatorsAt_iff.mpr ⟨hlevel, rfl⟩)]
        exact .inr ⟨frame, List.mem_cons_of_mem _ (Operand.mem_applyBinary hmem hframe _ _),
          hframe⟩

end PartialStmt

namespace Unfinished

/-- An error has come to light, or is still hidden. -/
def Faulty (s : Unfinished) : Prop :=
  s.errors ≠ [] ∨ ∃ stmt, s.position = .within stmt ∧ stmt.Faulty

theorem readWithin_errors_ne_nil {s : Unfinished} (h : s.errors ≠ []) (stmt : PartialStmt)
    (token : Token) : (s.readWithin stmt token).errors ≠ [] := by
  rw [readWithin]
  dsimp only
  split <;> simp [add, refuse, h]

theorem readBetween_errors_ne_nil {s : Unfinished} (h : s.errors ≠ []) (token : Token) :
    (s.readBetween token).errors ≠ [] := by
  rw [readBetween]
  split
  · exact h
  · exact h
  · exact h
  · exact h
  · exact readWithin_errors_ne_nil h _ token

theorem readWithin_faulty {s : Unfinished} {stmt : PartialStmt} (h : stmt.Faulty) (token : Token) :
    (s.readWithin stmt token).Faulty := by
  have hblames := h.read token
  rw [readWithin]
  dsimp only
  split
  next next hmore =>
    rw [hmore] at hblames
    rcases hblames with herrors | hnext
    · exact .inl (by simp [herrors])
    · exact .inr ⟨next, rfl, hnext⟩
  next hcomplete =>
    rw [hcomplete] at hblames
    exact .inl (by simp [add, show _ ≠ [] from hblames])
  · exact .inl (by simp [refuse])

theorem Faulty.read {s : Unfinished} (h : s.Faulty) (token : Token) : (s.read token).Faulty := by
  rcases h with herrors | ⟨stmt, hposition, hstmt⟩
  · apply Or.inl
    rw [Unfinished.read]
    split
    · exact readBetween_errors_ne_nil herrors token
    · exact readWithin_errors_ne_nil herrors _ token
    · split
      · exact herrors
      · split
        · exact readBetween_errors_ne_nil (s := { s with position := .between }) herrors token
        · exact herrors
  · rw [read_of_within hposition]
    exact readWithin_faulty hstmt token

theorem readWithin_end_errors_ne_nil {ending : Token} (h : ending.kind = .eof) (s : Unfinished)
    (stmt : PartialStmt) : (s.readWithin stmt ending).errors ≠ [] := by
  obtain ⟨fault, hrefuse⟩ := stmt.read_end h
  rw [readWithin]
  simp [hrefuse, refuse]

/-- What the end of input finds no fault with. -/
theorem finish_errors_eq_nil_iff {s : Unfinished} {ending : Token} (h : ending.kind = .eof) :
    (s.finish ending).errors = [] ↔
      s.errors = [] ∧ s.outer = [] ∧ ∀ stmt, s.position ≠ .within stmt := by
  rw [finish]
  split
  next stmt hposition =>
    constructor
    · intro herrors
      have hread := (List.append_eq_nil_iff.mp herrors).1
      exact absurd (List.reverse_eq_nil_iff.mp hread) (readWithin_end_errors_ne_nil h s stmt)
    · intro hnone
      exact absurd hposition (hnone.2.2 stmt)
  next hposition => simp [hposition]
  next hposition => simp [hposition]

theorem Faulty.finish_errors_ne_nil {s : Unfinished} (h : s.Faulty) {ending : Token}
    (hending : ending.kind = .eof) : (s.finish ending).errors ≠ [] := by
  intro hnil
  obtain ⟨herrors, -, hposition⟩ := (finish_errors_eq_nil_iff hending).mp hnil
  rcases h with h | ⟨stmt, hstmt, -⟩
  · exact h herrors
  · exact hposition stmt hstmt

end Unfinished

end Lox
