import Mathlib.Data.List.Flatten
import Mathlib.Data.List.Perm.Subperm
import Lox.Proofs.Grammar.Places

/-!
# The order of syntax errors

A token is to blame for one error at most, so no two errors stand at the same token, apart from
those at the end of input. The errors that break a statement off come to light in the order of their
tokens. An invalid target is hidden by its frame until the assignment is complete, and by then
errors further on may have come to light.
-/

namespace Lox

open scoped List

variable {token : Token} {frames : List Frame}

def Frame.hidden (frames : List Frame) : List SyntaxError := frames.flatMap errors

def PartialStmt.hidden (stmt : PartialStmt) : List SyntaxError := Frame.hidden stmt.frames

/-- The errors known from what a token did, but for those that it brought to light. -/
def Reaction.known (token : Token) : Reaction → List SyntaxError
  | .more stmt => stmt.hidden
  | .complete _ => []
  | .refuse fault => [⟨token, fault⟩]

/-- The later errors are some of the earlier ones and one at the token at most, which is an invalid
target only if the token is an equals sign. -/
def Token.AddsOne (token : Token) (earlier later : List SyntaxError) : Prop :=
  ∃ fault, (fault = .badTarget → token.kind = .equal) ∧ later <+~ ⟨token, fault⟩ :: earlier

namespace Token.AddsOne

variable {earlier later : List SyntaxError}

theorem of_sublist (h : later <+ earlier) : token.AddsOne earlier later :=
  ⟨.missingOperand, nofun, (h.cons _).subperm⟩

theorem of_fault {fault : SyntaxFault} (h : fault ≠ .badTarget) (earlier : List SyntaxError) :
    token.AddsOne earlier [⟨token, fault⟩] :=
  ⟨fault, fun heq ↦ absurd heq h, ((List.nil_sublist earlier).cons_cons _).subperm⟩

theorem append_right (h : token.AddsOne earlier later) (rest : List SyntaxError) :
    token.AddsOne (earlier ++ rest) (later ++ rest) := by
  obtain ⟨fault, hblame, hlater⟩ := h
  exact ⟨fault, hblame, (List.subperm_append_right rest).mpr hlater⟩

theorem perm {others : List SyntaxError} (h : token.AddsOne earlier later)
    (hperm : earlier ~ others) : token.AddsOne others later := by
  obtain ⟨fault, hblame, hlater⟩ := h
  exact ⟨fault, hblame, hlater.trans (hperm.cons _).subperm⟩

end Token.AddsOne

theorem Frame.hidden_sublist {fewer : List Frame} (h : fewer <:+ frames) :
    hidden fewer <+ hidden frames :=
  h.sublist.flatMap errors

theorem Frame.hidden_ofTarget (equals : Token) (left : Expr) (frames : List Frame) :
    hidden (ofTarget equals left :: frames) <+ ⟨equals, .badTarget⟩ :: hidden frames := by
  cases left with
  | var name => exact List.sublist_cons_self _ _
  | literal | group | unary | binary | assign => exact List.Sublist.refl _

/-- Closing brings the errors of some frames to light and loses none. -/
theorem Operand.close_perm (errors : List SyntaxError) (frames : List Frame) (e : Expr) :
    Frame.hidden (close errors frames e).2.frames ++ (close errors frames e).1 ~
      Frame.hidden frames ++ errors := by
  induction frames generalizing errors e with
  | nil => exact .refl _
  | cons frame frames ih =>
      by_cases hgroup : frame = .group
      · rw [hgroup]
        exact .refl _
      · rw [close_cons hgroup]
        have hhidden : Frame.hidden (frame :: frames) = frame.errors ++ Frame.hidden frames := rfl
        refine (ih _ _).trans ?_
        rw [hhidden, ← List.append_assoc]
        exact List.perm_append_comm.append_right errors

/-! ## One token -/

namespace PartialStmt

theorem readOperand_known (clause : Clause) (frames : List Frame) (token : Token) :
    token.AddsOne (Frame.hidden frames) ((readOperand clause frames token).known token) := by
  rw [readOperand]
  split
  · exact .of_sublist (List.Sublist.refl _)
  · exact .of_sublist (List.Sublist.refl _)
  · exact .of_sublist (List.Sublist.refl _)
  · cases token.operand? with
    | none => exact .of_fault (by simp) _
    | some e =>
        exact .of_sublist (Frame.hidden_sublist (Operand.applyUnary_frames_suffix frames e))

theorem readClosing_known (clause : Clause) (operand : Operand) (token : Token) :
    token.AddsOne (Frame.hidden operand.frames)
      ((readClosing clause operand token).known token) := by
  cases hreaction : readClosing clause operand token with
  | more next =>
      rw [readClosing] at hreaction
      split at hreaction
      next frames hframes _ =>
        cases hreaction
        have happly := Operand.applyUnary_frames_suffix frames (.group operand.expr)
        rw [hframes]
        exact .of_sublist (Frame.hidden_sublist (happly.trans (List.suffix_cons _ _)))
      all_goals cases hreaction
  | complete => exact .of_sublist (List.nil_sublist _)
  | refuse => exact .of_fault (readClosing_refuse hreaction) _

/-- A token is to blame for at most one error, and no error becomes known twice. -/
theorem read_known (stmt : PartialStmt) (token : Token) :
    token.AddsOne stmt.hidden ((stmt.read token).2.known token ++ (stmt.read token).1) := by
  cases stmt with
  | unnamed =>
      rw [PartialStmt.read]
      split
      · exact .of_sublist (List.Sublist.refl _)
      · exact .of_fault (by simp) _
  | named name =>
      unfold PartialStmt.read
      dsimp only
      split
      · exact .of_sublist (List.Sublist.refl _)
      · exact .of_sublist (List.Sublist.refl _)
      · exact .of_fault (by simp) _
  | waiting clause frames =>
      rw [PartialStmt.read, List.append_nil]
      exact readOperand_known clause frames token
  | ready clause operand =>
      by_cases hlevel : token.kind.precedence = 0
      · by_cases hequal : token.kind = .equal
        · have htarget := Frame.hidden_sublist
            (Operand.applyBinary_frames_suffix 1 operand.frames operand.expr)
          rw [read_ready_of_equal hequal, List.append_nil]
          refine ⟨.badTarget, fun _ ↦ hequal, List.Sublist.subperm ?_⟩
          exact (Frame.hidden_ofTarget token _ _).trans (htarget.cons_cons _)
        · have hclose := Operand.close_perm [] operand.frames operand.expr
          rw [List.append_nil] at hclose
          rw [read_ready_of_closing hlevel hequal]
          exact ((readClosing_known clause _ token).append_right _).perm hclose
      · have hleft := Frame.hidden_sublist
          (Operand.applyBinary_frames_suffix token.kind.precedence operand.frames operand.expr)
        rw [read_ready_of_binary (Kind.mem_operatorsAt_iff.mpr ⟨hlevel, rfl⟩), List.append_nil]
        exact .of_sublist hleft

end PartialStmt

namespace Unfinished

variable {s : Unfinished}

def hidden (s : Unfinished) : List SyntaxError :=
  match s.position with
  | .within stmt => stmt.hidden
  | .between | .skipping => []

/-- The errors that have come to light, and those still hidden. -/
def known (s : Unfinished) : List SyntaxError := s.hidden ++ s.errors

theorem known_of_within {stmt : PartialStmt} (h : s.position = .within stmt) :
    s.known = stmt.hidden ++ s.errors := by
  rw [known, hidden, h]

theorem known_of_aside (h : ∀ stmt, s.position ≠ .within stmt) : s.known = s.errors := by
  rw [known, hidden]
  split
  next stmt hposition => exact absurd hposition (h stmt)
  · rfl
  · rfl

theorem readWithin_known_eq (s : Unfinished) (stmt : PartialStmt) (token : Token) :
    (s.readWithin stmt token).known =
      (stmt.read token).2.known token ++ (stmt.read token).1 ++ s.errors := by
  cases hreaction : (stmt.read token).2 with
  | more next =>
      rw [readWithin_eq_of_more hreaction, List.append_assoc]
      rfl
  | complete result =>
      rw [readWithin_eq_of_complete hreaction]
      rfl
  | refuse fault =>
      rw [readWithin_eq_of_refuse hreaction, known_of_aside (by dsimp only; split <;> simp)]
      rfl

theorem readWithin_known (s : Unfinished) (stmt : PartialStmt) (token : Token) :
    token.AddsOne (stmt.hidden ++ s.errors) (s.readWithin stmt token).known := by
  rw [readWithin_known_eq]
  exact (stmt.read_known token).append_right s.errors

theorem readBetween_known (h : s.position = .between) (token : Token) :
    token.AddsOne s.known (s.readBetween token).known := by
  rw [known_of_aside (s := s) (by simp [h]), readBetween]
  split
  · exact .of_sublist (List.Sublist.refl _)
  · exact .of_sublist (List.Sublist.refl _)
  · rw [known_of_aside (by simp [openBlock, h])]
    exact .of_sublist (List.Sublist.refl _)
  · rw [known_of_aside (by simp [h])]
    exact .of_sublist (List.Sublist.refl _)
  · exact readWithin_known s (.waiting .expression []) token

theorem read_known (s : Unfinished) (token : Token) :
    token.AddsOne s.known (s.read token).known := by
  cases hposition : s.position with
  | between =>
      rw [read_of_between hposition]
      exact readBetween_known hposition token
  | within stmt =>
      rw [read_of_within hposition, known_of_within hposition]
      exact readWithin_known s stmt token
  | skipping =>
      have hbetween : known { s with position := .between } = s.known := by
        rw [known_of_aside (s := s) (by simp [hposition])]
        rfl
      simp only [Unfinished.read, hposition]
      split
      · rw [hbetween]
        exact .of_sublist (List.Sublist.refl _)
      · split
        · rw [← hbetween]
          exact readBetween_known rfl token
        · exact .of_sublist (List.Sublist.refl _)

/-- The errors that broke a statement off, the last first. -/
def panics (s : Unfinished) : List SyntaxError := s.errors.filter SyntaxError.panics

theorem readWithin_panics (s : Unfinished) (stmt : PartialStmt) (token : Token) :
    ∃ fault, (s.readWithin stmt token).panics <+ ⟨token, fault⟩ :: s.panics := by
  have hlight : (stmt.read token).1.filter SyntaxError.panics = [] := by
    simpa using stmt.read_panics token
  cases hreaction : (stmt.read token).2 with
  | more next =>
      refine ⟨.missingOperand, ?_⟩
      rw [readWithin_eq_of_more hreaction, panics, List.filter_append, hlight]
      exact List.sublist_cons_self _ _
  | complete result =>
      refine ⟨.missingOperand, ?_⟩
      rw [readWithin_eq_of_complete hreaction, panics, List.filter_append, hlight]
      exact List.sublist_cons_self _ _
  | refuse fault =>
      have hpanics : (SyntaxError.mk token fault).panics = true :=
        SyntaxError.panics_mk (PartialStmt.read_refuse hreaction)
      refine ⟨fault, ?_⟩
      rw [readWithin_eq_of_refuse hreaction, panics, List.filter_cons_of_pos hpanics,
        List.filter_append, hlight]
      exact List.Sublist.refl _

theorem readBetween_panics (s : Unfinished) (token : Token) :
    ∃ fault, (s.readBetween token).panics <+ ⟨token, fault⟩ :: s.panics := by
  have hsame : ∃ fault, s.panics <+ ⟨token, fault⟩ :: s.panics :=
    ⟨.missingOperand, List.sublist_cons_self _ _⟩
  rw [readBetween]
  split
  · exact hsame
  · exact hsame
  · exact hsame
  · exact hsame
  · exact readWithin_panics s _ token

theorem read_panics (s : Unfinished) (token : Token) :
    ∃ fault, (s.read token).panics <+ ⟨token, fault⟩ :: s.panics := by
  rw [Unfinished.read]
  split
  · exact readBetween_panics s token
  · exact readWithin_panics s _ token
  · split
    · exact ⟨.missingOperand, List.sublist_cons_self _ _⟩
    · split
      · exact readBetween_panics { s with position := .between } token
      · exact ⟨.missingOperand, List.sublist_cons_self _ _⟩

/-! ## Runs -/

/-- Errors known before line `n`, from tokens of which no two are on one line: each stands at a
token of its own, and those that broke a statement off stand in the order of their lines. -/
structure Ordered (n : Nat) (s : Unfinished) : Prop where
  below : ∀ error ∈ s.known, error.token.line < n
  distinct : (s.known.map (·.token.line)).Nodup
  panics : s.panics.Pairwise fun later earlier ↦ earlier.token.line < later.token.line
  targets : ∀ error ∈ s.known, error.fault = .badTarget → error.token.kind = .equal

variable {n m : Nat}

theorem ordered_start : start.Ordered 0 :=
  ⟨List.forall_mem_nil _, List.nodup_nil, .nil, List.forall_mem_nil _⟩

theorem Ordered.mono (h : s.Ordered n) (hnm : n ≤ m) : s.Ordered m :=
  ⟨fun error herror ↦ Nat.lt_of_lt_of_le (h.below error herror) hnm, h.distinct, h.panics,
    h.targets⟩

theorem Ordered.below_panics (h : s.Ordered n) : ∀ error ∈ s.panics, error.token.line < n :=
  fun error herror ↦ h.below error (List.mem_append_right _ (List.mem_of_mem_filter herror))

/-- A token on a later line adds one error at most. -/
theorem Ordered.add (h : s.Ordered n) (hline : n ≤ token.line) {t : Unfinished}
    (hknown : token.AddsOne s.known t.known)
    (hpanics : ∃ fault, t.panics <+ ⟨token, fault⟩ :: s.panics) : t.Ordered (token.line + 1) := by
  obtain ⟨fault, htarget, hknown⟩ := hknown
  obtain ⟨panic, hpanics⟩ := hpanics
  refine ⟨?_, ?_, ?_, ?_⟩
  · intro error herror
    rcases List.mem_cons.mp (hknown.subset herror) with rfl | herror
    · exact Nat.lt_succ_self _
    · exact Nat.lt_succ_of_lt (Nat.lt_of_lt_of_le (h.below error herror) hline)
  · have hfresh : ((⟨token, fault⟩ :: s.known).map (·.token.line)).Nodup := by
      refine List.nodup_cons.mpr ⟨?_, h.distinct⟩
      intro hmem
      obtain ⟨error, herror, heq⟩ := List.mem_map.mp hmem
      have hbelow := h.below error herror
      dsimp only at heq
      omega
    obtain ⟨known, hperm, hsublist⟩ := hknown
    exact (hperm.map _).nodup_iff.mp (hfresh.sublist (hsublist.map _))
  · refine List.Pairwise.sublist hpanics (List.pairwise_cons.mpr ⟨?_, h.panics⟩)
    intro error herror
    exact Nat.lt_of_lt_of_le (h.below_panics error herror) hline
  · intro error herror
    rcases List.mem_cons.mp (hknown.subset herror) with rfl | herror
    · exact htarget
    · exact h.targets error herror

theorem Ordered.read (h : s.Ordered n) (hline : n ≤ token.line) :
    (s.read token).Ordered (token.line + 1) :=
  h.add hline (s.read_known token) (s.read_panics token)

theorem Ordered.foldl_read (h : s.Ordered n) {tokens : List Token} (hnm : n ≤ m)
    (hlines : ∀ token ∈ tokens, n ≤ token.line ∧ token.line < m)
    (hrising : tokens.Pairwise fun a b ↦ a.line < b.line) :
    (tokens.foldl Unfinished.read s).Ordered m := by
  induction tokens generalizing s n with
  | nil => exact h.mono hnm
  | cons token tokens ih =>
      obtain ⟨⟨hn, hm⟩, htokens⟩ := List.forall_mem_cons.mp hlines
      obtain ⟨hfirst, hrising⟩ := List.pairwise_cons.mp hrising
      exact ih (h.read hn) hm (fun next hnext ↦ ⟨hfirst next hnext, (htokens next hnext).2⟩) hrising

end Unfinished

/-- Errors at tokens of which no two are on one line, in the order in which they came to light. The
end of input is on line `e`. -/
structure SyntaxError.Ordered (e : Nat) (errors : List SyntaxError) : Prop where
  panics : (errors.filter SyntaxError.panics).Pairwise fun earlier later ↦
    earlier.token.line < later.token.line ∨ earlier.token.line = e ∧ later.token.line = e
  targets : ∀ error ∈ errors, error.fault = .badTarget → error.token.kind = .equal
  distinct : errors.Pairwise fun a b ↦ a.token.line = b.token.line → a.token.line = e

/-- Errors at the end of input stand behind all others. -/
theorem SyntaxError.pairwise_append {e : Nat} {errors unclosed : List SyntaxError}
    {R : SyntaxError → SyntaxError → Prop} (h : errors.Pairwise R)
    (hbelow : ∀ error ∈ errors, error.token.line ≤ e)
    (hend : ∀ error ∈ unclosed, error.token.line = e)
    (hlast : ∀ a b : SyntaxError, a.token.line ≤ e → b.token.line = e → R a b) :
    (errors ++ unclosed).Pairwise R := by
  refine List.pairwise_append.mpr ⟨h, ?_, ?_⟩
  · apply List.pairwise_of_forall_mem_list
    intro a ha b hb
    exact hlast a b (Nat.le_of_eq (hend a ha)) (hend b hb)
  · intro a ha b hb
    exact hlast a b (hbelow a ha) (hend b hb)

namespace Unfinished

variable {s : Unfinished} {ending : Token}

theorem Ordered.result (h : s.Ordered (ending.line + 1)) :
    SyntaxError.Ordered ending.line (s.result ending).errors := by
  have hbelow : ∀ error ∈ s.errors.reverse, error.token.line ≤ ending.line := by
    intro error herror
    have hknown := List.mem_append_right s.hidden (List.mem_reverse.mp herror)
    exact Nat.le_of_lt_succ (h.below error hknown)
  have hend : ∀ error ∈ s.outer.map fun _ ↦ SyntaxError.mk ending .unclosedBlock,
      error.token.line = ending.line := by
    simp
  refine ⟨?_, ?_, ?_⟩
  · have hpanics : (s.errors.reverse.filter SyntaxError.panics).Pairwise fun earlier later ↦
        earlier.token.line < later.token.line := by
      rw [List.filter_reverse]
      exact List.pairwise_reverse.mpr h.panics
    rw [Unfinished.result, List.filter_append]
    refine SyntaxError.pairwise_append (hpanics.imp .inl)
      (fun error herror ↦ hbelow error (List.mem_of_mem_filter herror))
      (fun error herror ↦ hend error (List.mem_of_mem_filter herror)) ?_
    intro a b ha hb
    omega
  · intro error herror
    rcases List.mem_append.mp herror with herror | herror
    · exact h.targets error (List.mem_append_right s.hidden (List.mem_reverse.mp herror))
    · obtain ⟨_, _, rfl⟩ := List.mem_map.mp herror
      intro hfault
      cases hfault
  · have hdistinct : s.errors.reverse.Pairwise fun a b ↦ a.token.line ≠ b.token.line := by
      have hlines := h.distinct.sublist ((List.sublist_append_right s.hidden s.errors).map _)
      exact List.pairwise_reverse.mpr ((List.pairwise_map.mp hlines).imp Ne.symm)
    refine SyntaxError.pairwise_append (hdistinct.imp fun hne heq ↦ absurd heq hne) hbelow hend ?_
    intro a b _ hb hab
    exact hab.trans hb

theorem Ordered.finish (h : s.Ordered ending.line) :
    SyntaxError.Ordered ending.line (s.finish ending).errors := by
  cases hposition : s.position with
  | between | skipping =>
      simp only [Unfinished.finish, hposition]
      exact (h.mono (Nat.le_succ _)).result
  | within stmt =>
      have hknown := readWithin_known s stmt ending
      rw [← known_of_within hposition] at hknown
      simp only [Unfinished.finish, hposition]
      exact (h.add (Nat.le_refl _) hknown (readWithin_panics s stmt ending)).result

end Unfinished

/-- If no two tokens are on one line, the lines tell the order of the errors. -/
theorem Parsed.errors_ordered {body : List Token} {ending : Token}
    (hbody : ∀ token ∈ body, token.kind ≠ .eof) (hending : ending.kind = .eof) {rest : List Token}
    (hrising : (body ++ ending :: rest).Pairwise fun a b ↦ a.line < b.line) :
    SyntaxError.Ordered ending.line (ofTokens (body ++ ending :: rest)).errors := by
  obtain ⟨hbodyRising, -, hlast⟩ := List.pairwise_append.mp hrising
  rw [ofTokens_append_end hbody hending]
  refine (Unfinished.ordered_start.foldl_read (Nat.zero_le _) ?_ hbodyRising).finish
  intro token htoken
  exact ⟨Nat.zero_le _, hlast token htoken ending List.mem_cons_self⟩

end Lox
