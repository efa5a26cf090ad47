import Lox.Proofs.Grammar.Earliest

/-!
# Where syntax errors stand

Every error stands at a token that has been read, also an error that a frame still hides.
-/

namespace Lox

/-- The errors that frames hide stand at some of the tokens. -/
def Frame.PointInto (tokens : List Token) (frames : List Frame) : Prop :=
  ∀ frame ∈ frames, ∀ error ∈ frame.errors, error.token ∈ tokens

def Reaction.frames : Reaction → List Frame
  | .more stmt => stmt.frames
  | .complete _ | .refuse _ => []

variable {tokens : List Token} {token : Token} {frames : List Frame}

theorem Frame.PointInto.nil : PointInto tokens [] := List.forall_mem_nil _

theorem Frame.PointInto.mono (h : PointInto tokens frames) {fewer : List Frame}
    (hsubset : fewer ⊆ frames) : PointInto tokens fewer :=
  fun frame hframe ↦ h frame (hsubset hframe)

theorem Frame.PointInto.cons (h : PointInto tokens frames) {frame : Frame}
    (hframe : ∀ error ∈ frame.errors, error.token ∈ tokens) : PointInto tokens (frame :: frames) :=
  List.forall_mem_cons.mpr ⟨hframe, h⟩

theorem Frame.errors_ofTarget (htoken : token ∈ tokens) (left : Expr) :
    ∀ error ∈ (ofTarget token left).errors, error.token ∈ tokens := by
  cases left with
  | var name => simp [ofTarget, errors]
  | literal | group | unary | binary | assign => simpa [ofTarget, errors] using htoken

namespace Operand

theorem applyBinary_frames_suffix (level : Nat) (frames : List Frame) (e : Expr) :
    (applyBinary level frames e).frames <:+ frames := by
  induction frames generalizing e with
  | nil => exact List.suffix_rfl
  | cons frame frames ih =>
      unfold applyBinary
      split
      next heq =>
        obtain ⟨rfl, rfl⟩ := List.cons.inj heq
        split
        · exact (ih _).trans (List.suffix_cons _ _)
        · exact List.suffix_rfl
      · exact List.suffix_rfl

theorem close_errors_mem (h : Frame.PointInto tokens frames) {errors : List SyntaxError}
    (herrors : ∀ error ∈ errors, error.token ∈ tokens) (e : Expr) :
    ∀ error ∈ (close errors frames e).1, error.token ∈ tokens := by
  induction frames generalizing errors e with
  | nil => exact herrors
  | cons frame frames ih =>
      by_cases hgroup : frame = .group
      · rw [hgroup]
        exact herrors
      · obtain ⟨hframe, hframes⟩ := List.forall_mem_cons.mp h
        rw [close_cons hgroup]
        exact ih hframes (List.forall_mem_append.mpr ⟨hframe, herrors⟩) _

end Operand

namespace PartialStmt

theorem readOperand_frames (h : Frame.PointInto tokens frames) (clause : Clause) (token : Token) :
    Frame.PointInto tokens (readOperand clause frames token).frames := by
  rw [readOperand]
  split
  · exact h.cons (by simp [Frame.errors])
  · exact h.cons (by simp [Frame.errors])
  · exact h.cons (by simp [Frame.errors])
  · cases token.operand? with
    | none => exact .nil
    | some e => exact h.mono (Operand.applyUnary_frames_suffix frames e).subset

theorem readClosing_frames {operand : Operand} (h : Frame.PointInto tokens operand.frames)
    (clause : Clause) (token : Token) :
    Frame.PointInto tokens (readClosing clause operand token).frames := by
  rw [readClosing]
  split
  next frames hframes _ =>
    rw [hframes] at h
    have happly := Operand.applyUnary_frames_suffix frames (.group operand.expr)
    exact h.mono (happly.trans (List.suffix_cons _ _)).subset
  · exact .nil
  · exact .nil
  · exact .nil

theorem read_errors_mem {stmt : PartialStmt} (h : Frame.PointInto tokens stmt.frames)
    (htoken : token ∈ tokens) :
    (∀ error ∈ (stmt.read token).1, error.token ∈ tokens) ∧
      Frame.PointInto tokens (stmt.read token).2.frames := by
  cases stmt with
  | unnamed =>
      rw [PartialStmt.read]
      split <;> exact ⟨List.forall_mem_nil _, .nil⟩
  | named name =>
      unfold PartialStmt.read
      dsimp only
      split <;> exact ⟨List.forall_mem_nil _, .nil⟩
  | waiting clause frames => exact ⟨List.forall_mem_nil _, readOperand_frames h clause token⟩
  | ready clause operand =>
      by_cases hlevel : token.kind.precedence = 0
      · by_cases hequal : token.kind = .equal
        · have htarget := h.mono
            (Operand.applyBinary_frames_suffix 1 operand.frames operand.expr).subset
          rw [read_ready_of_equal hequal]
          exact ⟨List.forall_mem_nil _, htarget.cons (Frame.errors_ofTarget htoken _)⟩
        · have hclosed := h.mono
            (Operand.close_frames_suffix [] operand.frames operand.expr).subset
          rw [read_ready_of_closing hlevel hequal]
          exact ⟨Operand.close_errors_mem h (List.forall_mem_nil _) _,
            readClosing_frames hclosed clause token⟩
      · have hleft := h.mono
          (Operand.applyBinary_frames_suffix token.kind.precedence operand.frames
            operand.expr).subset
        rw [read_ready_of_binary (Kind.mem_operatorsAt_iff.mpr ⟨hlevel, rfl⟩)]
        exact ⟨List.forall_mem_nil _, hleft.cons (by simp [Frame.errors])⟩

end PartialStmt

namespace Unfinished

/-- The errors that have come to light, and those still hidden, stand at some of the tokens. -/
structure PointsInto (tokens : List Token) (s : Unfinished) : Prop where
  errors : ∀ error ∈ s.errors, error.token ∈ tokens
  frames : ∀ stmt, s.position = .within stmt → Frame.PointInto tokens stmt.frames

variable {s : Unfinished}

theorem PointsInto.readWithin (h : s.PointsInto tokens) {stmt : PartialStmt}
    (hstmt : Frame.PointInto tokens stmt.frames) (htoken : token ∈ tokens) :
    (s.readWithin stmt token).PointsInto tokens := by
  obtain ⟨hread, hframes⟩ := stmt.read_errors_mem hstmt htoken
  have herrors := List.forall_mem_append.mpr ⟨hread, h.errors⟩
  cases hreaction : (stmt.read token).2 with
  | more next =>
      rw [hreaction] at hframes
      rw [readWithin_eq_of_more hreaction]
      refine ⟨herrors, ?_⟩
      rintro _ ⟨⟩
      exact hframes
  | complete result =>
      rw [readWithin_eq_of_complete hreaction]
      exact ⟨herrors, fun _ hposition ↦ nomatch hposition⟩
  | refuse fault =>
      rw [readWithin_eq_of_refuse hreaction]
      refine ⟨List.forall_mem_cons.mpr ⟨htoken, herrors⟩, ?_⟩
      intro next hposition
      dsimp only at hposition
      split at hposition <;> cases hposition

theorem PointsInto.readBetween (h : s.PointsInto tokens) (htoken : token ∈ tokens) :
    (s.readBetween token).PointsInto tokens := by
  rw [Unfinished.readBetween]
  split
  · refine ⟨h.errors, ?_⟩
    rintro _ ⟨⟩
    exact .nil
  · refine ⟨h.errors, ?_⟩
    rintro _ ⟨⟩
    exact .nil
  · exact ⟨h.errors, h.frames⟩
  · exact ⟨h.errors, h.frames⟩
  · exact h.readWithin .nil htoken

theorem PointsInto.read (h : s.PointsInto tokens) (htoken : token ∈ tokens) :
    (s.read token).PointsInto tokens := by
  cases hposition : s.position with
  | between =>
      rw [read_of_between hposition]
      exact h.readBetween htoken
  | within stmt =>
      rw [read_of_within hposition]
      exact h.readWithin (h.frames stmt hposition) htoken
  | skipping =>
      have hbetween : PointsInto tokens { s with position := .between } :=
        ⟨h.errors, fun _ hbetween ↦ nomatch hbetween⟩
      simp only [Unfinished.read, hposition]
      split
      · exact hbetween
      · split
        · exact hbetween.readBetween htoken
        · exact h

theorem PointsInto.foldl_read (h : s.PointsInto tokens) {front : List Token}
    (hfront : front ⊆ tokens) : (front.foldl Unfinished.read s).PointsInto tokens := by
  induction front generalizing s with
  | nil => exact h
  | cons token rest ih =>
      obtain ⟨htoken, hrest⟩ := List.cons_subset.mp hfront
      exact ih (h.read htoken) hrest

theorem PointsInto.finish (h : s.PointsInto tokens) (htoken : token ∈ tokens) :
    ∀ error ∈ (s.finish token).errors, error.token ∈ tokens := by
  have hresult (last : Unfinished) (hlast : last.PointsInto tokens) :
      ∀ error ∈ last.errors.reverse ++ last.outer.map fun _ ↦ SyntaxError.mk token .unclosedBlock,
        error.token ∈ tokens := by
    simp only [List.forall_mem_append, List.mem_reverse, List.forall_mem_map]
    exact ⟨hlast.errors, fun _ _ ↦ htoken⟩
  unfold Unfinished.finish
  split
  next stmt hposition => exact hresult _ (h.readWithin (h.frames stmt hposition) htoken)
  · exact hresult s h
  · exact hresult s h

end Unfinished

/-- An error stands at a token in front of the end of input or at that end. -/
theorem Parsed.errors_mem {body : List Token} {ending : Token}
    (hbody : ∀ token ∈ body, token.kind ≠ .eof) (hending : ending.kind = .eof)
    (rest : List Token) :
    ∀ error ∈ (ofTokens (body ++ ending :: rest)).errors, error.token ∈ body ++ [ending] := by
  have hstart : Unfinished.start.PointsInto (body ++ [ending]) :=
    ⟨List.forall_mem_nil _, fun _ hbetween ↦ nomatch hbetween⟩
  rw [ofTokens_append_end hbody hending]
  exact (hstart.foldl_read (List.subset_append_left body [ending])).finish (by simp)

end Lox
