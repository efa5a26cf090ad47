import Lox.Source.Scan
import Lox.Proofs.Relining.Basic

/-!
# Lines of pieces

The tokens and errors of pieces in a row, where the line of each is counted from the first. Pieces
that start later give the same with larger line numbers.
-/

namespace Lox

namespace Piece

/-- A claim about all texts, if it holds in front of a piece when it holds behind. -/
theorem text_induction {motive : List Char → Prop} (nil : motive [])
    (cut : ∀ c rest, motive (cut c rest).2 → motive (c :: rest)) (text : List Char) :
    motive text := by
  suffices h : ∀ n, ∀ text : List Char, text.length ≤ n → motive text from
    h text.length text (Nat.le_refl _)
  intro n
  induction n with
  | zero =>
      intro text h
      rw [List.eq_nil_of_length_eq_zero (Nat.le_zero.mp h)]
      exact nil
  | succ n ih =>
      intro text h
      cases text with
      | nil => exact nil
      | cons c rest =>
          have hle := cut_length_le c rest
          apply cut
          apply ih
          exact Nat.le_trans hle (Nat.le_of_succ_le_succ h)

/-! ## Tokens and errors -/

def newlinesOfAll : List Piece → Nat
  | [] => 0
  | piece :: rest => piece.newlines + newlinesOfAll rest

def tokensFrom (line : Nat) : List Piece → List Token
  | [] => []
  | piece :: rest =>
      (piece.token? (line + piece.newlines)).toList ++ tokensFrom (line + piece.newlines) rest

def errorsFrom (line : Nat) : List Piece → List ScanError
  | [] => []
  | piece :: rest =>
      (piece.fault?.map (ScanError.mk line)).toList ++ errorsFrom (line + piece.newlines) rest

theorem newlinesOfAll_eq_count (pieces : List Piece) :
    newlinesOfAll pieces = (pieces.flatMap Piece.text).count '\n' := by
  induction pieces with
  | nil => rfl
  | cons piece rest ih =>
      rw [newlinesOfAll, List.flatMap_cons, List.count_append, ih]
      rfl

theorem newlinesOfAll_ofText (text : List Char) :
    newlinesOfAll (ofText text) = text.count '\n' := by
  rw [newlinesOfAll_eq_count, flatMap_text_ofText]

theorem tokensFrom_append (line : Nat) (front rest : List Piece) :
    tokensFrom line (front ++ rest) =
      tokensFrom line front ++ tokensFrom (line + newlinesOfAll front) rest := by
  induction front generalizing line with
  | nil => rfl
  | cons piece front ih =>
      simp [tokensFrom, ih, newlinesOfAll, Nat.add_assoc]

theorem errorsFrom_append (line : Nat) (front rest : List Piece) :
    errorsFrom line (front ++ rest) =
      errorsFrom line front ++ errorsFrom (line + newlinesOfAll front) rest := by
  induction front generalizing line with
  | nil => rfl
  | cons piece front ih =>
      simp [errorsFrom, ih, newlinesOfAll, Nat.add_assoc]

theorem token?_add (piece : Piece) (line shift : Nat) :
    piece.token? (line + shift) = (piece.token? line).map (Token.reline (· + shift)) := by
  unfold token?
  split <;> rfl

theorem tokensFrom_add (line shift : Nat) (pieces : List Piece) :
    tokensFrom (line + shift) pieces = (tokensFrom line pieces).map (Token.reline (· + shift)) := by
  induction pieces generalizing line with
  | nil => rfl
  | cons piece rest ih =>
      rw [tokensFrom, tokensFrom, List.map_append, ← ih, Nat.add_right_comm, token?_add]
      cases piece.token? (line + piece.newlines) <;> rfl

theorem errorsFrom_add (line shift : Nat) (pieces : List Piece) :
    errorsFrom (line + shift) pieces =
      (errorsFrom line pieces).map (ScanError.reline (· + shift)) := by
  induction pieces generalizing line with
  | nil => rfl
  | cons piece rest ih =>
      rw [errorsFrom, errorsFrom, List.map_append, ← ih, Nat.add_right_comm]
      cases piece.fault? <;> rfl

/-! ## No piece is the end of input -/

theorem single_ne_eof (c : Char) : single c ≠ some .eof := by
  unfold single
  split <;> simp

theorem withEqual_ne_eof (c : Char) : withEqual c ≠ some .eof := by
  unfold withEqual
  split <;> simp

theorem cutSymbol_role_ne_eof (c : Char) (rest : List Char) :
    (cutSymbol c rest).1.role ≠ .symbol .eof := by
  unfold cutSymbol
  split
  next kind after hkind =>
    rintro ⟨⟩
    exact withEqual_ne_eof c hkind
  · split
    next kind hkind =>
      rintro ⟨⟩
      exact single_ne_eof c hkind
    · simp

theorem cut_role_ne_eof (c : Char) (rest : List Char) : (cut c rest).1.role ≠ .symbol .eof := by
  unfold cut
  split
  · simp
  split
  · simp [cutNumber]
  split
  · simp [cutWord]
  split
  · unfold cutString
    dsimp only
    split <;> simp
  · split
    · simp [cutComment]
    · exact cutSymbol_role_ne_eof c rest

theorem ofText_role_ne_eof (text : List Char) :
    ∀ piece ∈ ofText text, piece.role ≠ .symbol .eof := by
  induction text using text_induction with
  | nil => simp
  | cut c rest ih =>
      rw [ofText_cons]
      exact List.forall_mem_cons.mpr ⟨cut_role_ne_eof c rest, ih⟩

theorem token?_kind_ne_eof {piece : Piece} (h : piece.role ≠ .symbol .eof) {line : Nat}
    {token : Token} (htoken : piece.token? line = some token) : token.kind ≠ .eof := by
  rw [token?] at htoken
  split at htoken
  next kind hrole =>
    cases htoken
    rintro rfl
    exact h hrole
  next =>
    cases htoken
    rw [Token.plain, Kind.ofWord]
    split <;> simp
  all_goals cases htoken <;> simp

theorem tokensFrom_kind_ne_eof (line : Nat) {pieces : List Piece}
    (h : ∀ piece ∈ pieces, piece.role ≠ .symbol .eof) :
    ∀ token ∈ tokensFrom line pieces, token.kind ≠ .eof := by
  induction pieces generalizing line with
  | nil => simp [tokensFrom]
  | cons piece rest ih =>
      obtain ⟨hpiece, hrest⟩ := List.forall_mem_cons.mp h
      intro token htoken
      rcases List.mem_append.mp htoken with hfirst | hlater
      · exact token?_kind_ne_eof hpiece (Option.mem_toList.mp hfirst)
      · exact ih _ hrest token hlater

end Piece

theorem Scanning.foldl_add (pieces : List Piece) (done : Scanning) :
    pieces.foldl add done =
      { line := done.line + Piece.newlinesOfAll pieces
        tokens := (Piece.tokensFrom done.line pieces).reverse ++ done.tokens
        errors := (Piece.errorsFrom done.line pieces).reverse ++ done.errors } := by
  induction pieces generalizing done with
  | nil => rfl
  | cons piece rest ih =>
      rw [List.foldl_cons, ih]
      simp only [add, Piece.newlinesOfAll, Piece.tokensFrom, Piece.errorsFrom]
      cases piece.token? (done.line + piece.newlines) <;> cases piece.fault? <;>
        simp [Nat.add_assoc]

namespace Scan

theorem tokens_ofText (text : List Char) :
    (ofText text).tokens =
      Piece.tokensFrom 1 (Piece.ofText text) ++ [.endOfInput (1 + text.count '\n')] := by
  simp [ofText, Scanning.foldl_add, Scanning.finish, Scanning.start, Piece.newlinesOfAll_ofText]

theorem errors_ofText (text : List Char) :
    (ofText text).errors = Piece.errorsFrom 1 (Piece.ofText text) := by
  simp [ofText, Scanning.foldl_add, Scanning.finish, Scanning.start]

/-- Where a piece is faulty there is an error. -/
theorem fault?_eq_none {line : Nat} {pieces : List Piece}
    (h : Piece.errorsFrom line pieces = []) : ∀ piece ∈ pieces, piece.fault? = none := by
  induction pieces generalizing line with
  | nil => simp
  | cons piece rest ih =>
      obtain ⟨hpiece, hrest⟩ := List.append_eq_nil_iff.mp h
      intro p hp
      rcases List.mem_cons.mp hp with rfl | hp
      · cases hfault : p.fault? with
        | none => rfl
        | some fault => simp [hfault] at hpiece
      · exact ih hrest p hp

end Scan

end Lox
