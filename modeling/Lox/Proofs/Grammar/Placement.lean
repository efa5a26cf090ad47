import Mathlib.Data.List.Basic
import Lox.Proofs.Grammar.Positions
import Lox.Proofs.Grammar.Resumption

/-!
# The indices of syntax errors

Every error stands at an index of the token list, although equal tokens cannot be told apart: tokens
that carry their index in place of a line number are read alike, and their errors name the index.
-/

namespace Lox

variable {tokens body after : List Token} {token ending : Token} {error : SyntaxError}

/-! ## The end of input -/

/-- The tokens and an end of input on the line of the last one, unless they end in one. -/
def terminated (tokens : List Token) : List Token :=
  match tokens.getLast? with
  | none => []
  | some last => if last.isEnd then tokens else tokens ++ [.endOfInput last.line]

theorem terminated_eq_nil_or (tokens : List Token) :
    terminated tokens = [] ∨
      ∃ front ending, terminated tokens = front ++ [ending] ∧ ending.kind = .eof := by
  unfold terminated
  split
  · exact .inl rfl
  next last hlast =>
    split
    next hend =>
      obtain ⟨front, rfl⟩ := List.getLast?_eq_some_iff.mp hlast
      exact .inr ⟨front, last, rfl, by simpa [Token.isEnd] using hend⟩
    · exact .inr ⟨tokens, _, rfl, rfl⟩

theorem Parsed.ofTokens_terminated (tokens : List Token) :
    ofTokens (terminated tokens) = ofTokens tokens := by
  unfold terminated
  split
  next hnone =>
    rw [List.getLast?_eq_none_iff.mp hnone]
  next last hlast =>
    split
    · rfl
    · have hwhile : (tokens ++ [Token.endOfInput last.line]).takeWhile (fun token ↦ !token.isEnd) =
          tokens.takeWhile fun token ↦ !token.isEnd := by
        have hend : (Token.endOfInput last.line).isEnd = true := rfl
        rw [List.takeWhile_append]
        split
        next hall =>
          rw [List.takeWhile_cons_of_neg (by simp [hend]), List.append_nil]
          exact ((List.takeWhile_prefix _).eq_of_length hall).symm
        · rfl
      have hfind : ((tokens ++ [Token.endOfInput last.line]).find? Token.isEnd).getD
          (.endOfInput last.line) = (tokens.find? Token.isEnd).getD (.endOfInput last.line) := by
        rw [List.find?_append]
        cases tokens.find? Token.isEnd <;> rfl
      simp only [ofTokens, List.getLast?_concat, hlast, hwhile]
      exact congrArg _ hfind

/-! ## Tokens that carry their index -/

/-- Each token has its index for a line number. -/
def Numbered (tokens : List Token) : Prop :=
  ∀ ⦃i : Nat⦄ ⦃token : Token⦄, tokens[i]? = some token → token.line = i

def numbered (tokens : List Token) : List Token :=
  tokens.mapIdx fun i token ↦ token.reline fun _ ↦ i

def lineAt (tokens : List Token) (i : Nat) : Nat := (tokens[i]?.map Token.line).getD 0

theorem numbered_numbered (tokens : List Token) : Numbered (numbered tokens) := by
  intro i token h
  rw [numbered, List.getElem?_mapIdx] at h
  obtain ⟨_, _, rfl⟩ := Option.map_eq_some_iff.mp h
  rfl

theorem numbered_reline (tokens : List Token) :
    (numbered tokens).map (Token.reline (lineAt tokens)) = tokens := by
  apply List.ext_getElem?
  intro i
  rw [List.getElem?_map, numbered, List.getElem?_mapIdx]
  cases h : tokens[i]? with
  | none => rfl
  | some token => simp [Token.reline, lineAt, h]

/-- Tokens up to an end of input are some that carry their index, on other lines. -/
theorem exists_numbered (front : List Token) (hending : ending.kind = .eof) :
    ∃ carried last f, Numbered (carried ++ [last]) ∧ last.kind = .eof ∧
      (carried ++ [last]).map (Token.reline f) = front ++ [ending] := by
  have hnumbered := numbered_numbered (front ++ [ending])
  have hlines := numbered_reline (front ++ [ending])
  rw [numbered, List.mapIdx_concat] at hnumbered hlines
  exact ⟨_, _, _, hnumbered, hending, hlines⟩

theorem Numbered.rising (h : Numbered tokens) : tokens.Pairwise fun a b ↦ a.line < b.line := by
  apply List.pairwise_iff_getElem.mpr
  intro i j hi hj hij
  rwa [h (List.getElem?_eq_getElem hi), h (List.getElem?_eq_getElem hj)]

theorem Numbered.line_of_append {before : List Token}
    (h : Numbered (before ++ token :: after)) : token.line = before.length :=
  h (by simp)

/-- An error names its index. -/
theorem Numbered.getElem?_error (h : Numbered (body ++ ending :: after))
    (hbody : ∀ token ∈ body, token.kind ≠ .eof) (hending : ending.kind = .eof)
    (herror : error ∈ (Parsed.ofTokens (body ++ ending :: after)).errors) :
    error.token.line ≤ body.length ∧
      (body ++ ending :: after)[error.token.line]? = some error.token := by
  have hmem := Parsed.errors_mem hbody hending after error herror
  obtain ⟨i, hi⟩ := List.mem_iff_getElem?.mp hmem
  obtain ⟨hlength, -⟩ := List.getElem?_eq_some_iff.mp hi
  have hat : (body ++ ending :: after)[i]? = some error.token := by
    rw [List.append_cons, List.getElem?_append_left hlength, hi]
  rw [h hat]
  rw [List.length_append, List.length_singleton] at hlength
  exact ⟨Nat.le_of_lt_succ hlength, hat⟩

/-- The tokens in front of the first error that breaks a statement off are read calmly. -/
theorem Numbered.exists_calm (h : Numbered (body ++ ending :: after))
    (hbody : ∀ token ∈ body, token.kind ≠ .eof) (hending : ending.kind = .eof)
    (hpanic : (Parsed.ofTokens (body ++ ending :: after)).panic? = some error)
    (hline : error.token.line < body.length) :
    ∃ before token rest, body = before ++ token :: rest ∧ before.length = error.token.line ∧
      (before.foldl Unfinished.read .start).Calm ∧
      ((before.foldl Unfinished.read .start).read token).panic? = some error := by
  rw [Parsed.ofTokens_append_end hbody hending] at hpanic
  rcases Unfinished.calm_start.foldl_read body with
    hcalm | ⟨before, token, rest, fault, rfl, hcalm, hfirst⟩
  · rcases hcalm.finish hending with hrest | ⟨fault, hlast⟩
    · have hnone := find?_panics_eq_none_iff.mpr (hcalm.finish_panics hrest ending)
      simp [Parsed.panic?, hnone] at hpanic
    · obtain rfl := Option.some.inj (hlast.symm.trans hpanic)
      have hend := h.line_of_append
      dsimp only at hline
      omega
  · rw [List.foldl_append, List.foldl_cons] at hpanic
    have hlater := Unfinished.panic?_finish (Unfinished.panic?_foldl_read hfirst rest) ending
    obtain rfl := Option.some.inj (hlater.symm.trans hpanic)
    rw [List.append_assoc] at h
    exact ⟨before, token, rest, rfl, h.line_of_append.symm, hcalm, hfirst⟩

/-- The index of the first end of input counts the tokens in front of it. -/
theorem findIdx_isEnd (hbody : ∀ token ∈ body, token.kind ≠ .eof) (hending : ending.kind = .eof)
    (after : List Token) : (body ++ ending :: after).findIdx Token.isEnd = body.length := by
  have hnone : body.findIdx Token.isEnd = body.length :=
    List.findIdx_eq_length_of_false (by simpa [Token.isEnd] using hbody)
  have hend : ending.isEnd = true := by simp [Token.isEnd, hending]
  rw [List.findIdx_append, hnone, if_neg (Nat.lt_irrefl _), List.findIdx_cons, hend]
  exact Nat.zero_add _

/-- Reading goes on at the first place behind the index of the error. -/
theorem Numbered.resumes {front : List Token} (h : Numbered (front ++ [ending]))
    (hending : ending.kind = .eof)
    (hpanic : (Parsed.ofTokens (front ++ [ending])).panic? = some error)
    (hline : error.token.line < (front ++ [ending]).findIdx Token.isEnd)
    (hbrace : ∀ token ∈ (front ++ [ending]).take error.token.line, token.kind ≠ .leftBrace) :
    ∃ k program errors,
      IsLeast {k | error.token.line < k ∧ ResumesAt (front ++ [ending]) k} k ∧
      Parsed.ofTokens (front ++ [ending]) =
        { program := program ++ (Parsed.ofTokens ((front ++ [ending]).drop k)).program
          errors := errors ++ [error] ++
            (Parsed.ofTokens ((front ++ [ending]).drop k)).errors } := by
  obtain ⟨body, stop, after, hsplit, hbody, hstop⟩ := Parsed.exists_eq_foldl_finish front hending
  rw [hsplit] at h hpanic hline hbrace ⊢
  have hend := findIdx_isEnd hbody hstop after
  obtain ⟨before, token, rest, rfl, hlength, hcalm, hfirst⟩ :=
    h.exists_calm hbody hstop hpanic (hend ▸ hline)
  obtain ⟨hbefore, htail⟩ := List.forall_mem_append.mp hbody
  obtain ⟨hkind, hrest⟩ := List.forall_mem_cons.mp htail
  rw [List.append_assoc, List.cons_append] at hbrace hend ⊢
  rw [← hlength, List.take_left] at hbrace
  rw [← hlength]
  have hdrop : (before ++ token :: (rest ++ stop :: after)).drop before.length =
      token :: (rest ++ stop :: after) := List.drop_left
  have hresumed : (before ++ token :: (rest ++ stop :: after)).drop
      (before.length + 1 + skipped token rest) =
        rest.drop (skipped token rest) ++ stop :: after := by
    rw [Nat.add_assoc, ← List.drop_drop, hdrop, Nat.add_comm 1, List.drop_succ_cons,
      List.drop_append_of_le_length (skipped_le token rest)]
  obtain ⟨program, errors, hparsed⟩ :=
    Parsed.ofTokens_of_panic hbefore hkind hrest hstop hbrace hcalm hfirst after
  refine ⟨_, program, errors, isLeast_skipped hdrop ?_, ?_⟩
  · rw [hend, List.length_append, List.length_cons]
    omega
  · rw [hresumed]
    exact hparsed

/-! ## Every token list -/

theorem resumesAt_map_reline (f : Nat → Nat) (tokens : List Token) (k : Nat) :
    ResumesAt (tokens.map (Token.reline f)) k ↔ ResumesAt tokens k := by
  simp [ResumesAt, List.getElem?_map, List.findIdx_map, Function.comp_def]

/-- Errors and the indices of their tokens, in the order in which the errors came to light. -/
structure Placed (tokens : List Token) (placed : List (SyntaxError × Nat)) : Prop where
  stands : ∀ p ∈ placed, p.2 ≤ tokens.findIdx Token.isEnd ∧ tokens[p.2]? = some p.1.token
  /-- The indices of the errors that break a statement off rise up to the end of input. -/
  rising : (placed.filter (·.1.panics)).Pairwise fun p q ↦
    p.2 < q.2 ∨ p.2 = tokens.findIdx Token.isEnd ∧ q.2 = tokens.findIdx Token.isEnd
  targets : ∀ p ∈ placed, p.1.panics = false →
    p.2 < tokens.findIdx Token.isEnd ∧ p.1.token.kind = .equal
  distinct : placed.Pairwise fun p q ↦ p.2 = q.2 → p.2 = tokens.findIdx Token.isEnd

theorem SyntaxError.fault_eq_of_panics (h : error.panics = false) : error.fault = .badTarget := by
  by_contra hfault
  have hpanics : error.panics = true := SyntaxError.panics_mk hfault
  simp [h] at hpanics

theorem Numbered.placed {front : List Token} (h : Numbered (front ++ [ending]))
    (hending : ending.kind = .eof) :
    Placed (front ++ [ending])
      ((Parsed.ofTokens (front ++ [ending])).errors.map fun error ↦
        (error, error.token.line)) := by
  obtain ⟨body, stop, after, hsplit, hbody, hstop⟩ := Parsed.exists_eq_foldl_finish front hending
  rw [hsplit] at h ⊢
  have hend := findIdx_isEnd hbody hstop after
  have hordered := Parsed.errors_ordered hbody hstop h.rising
  rw [h.line_of_append] at hordered
  refine ⟨?_, ?_, ?_, ?_⟩
  · rw [hend, List.forall_mem_map]
    intro error herror
    exact h.getElem?_error hbody hstop herror
  · rw [hend, List.filter_map, List.pairwise_map]
    exact hordered.panics
  · rw [hend, List.forall_mem_map]
    intro error herror hpanics
    obtain ⟨hle, hat⟩ := h.getElem?_error hbody hstop herror
    have hequal := hordered.targets error herror (SyntaxError.fault_eq_of_panics hpanics)
    refine ⟨Nat.lt_of_le_of_ne hle ?_, hequal⟩
    intro hlast
    dsimp only at hlast
    rw [hlast, List.getElem?_append_right (Nat.le_refl _), Nat.sub_self] at hat
    rw [← Option.some.inj hat, hstop] at hequal
    cases hequal
  · rw [hend, List.pairwise_map]
    exact hordered.distinct

theorem Placed.reline {placed : List (SyntaxError × Nat)} (h : Placed tokens placed)
    (f : Nat → Nat) :
    Placed (tokens.map (Token.reline f)) (placed.map fun p ↦ (p.1.reline f, p.2)) := by
  have hend : (tokens.map (Token.reline f)).findIdx Token.isEnd = tokens.findIdx Token.isEnd := by
    simp [List.findIdx_map, Function.comp_def]
  refine ⟨?_, ?_, ?_, ?_⟩
  · rw [hend, List.forall_mem_map]
    intro p hp
    obtain ⟨hle, hat⟩ := h.stands p hp
    exact ⟨hle, by rw [List.getElem?_map, hat]; rfl⟩
  · rw [hend, List.filter_map, List.pairwise_map]
    exact h.rising
  · rw [hend, List.forall_mem_map]
    exact h.targets
  · rw [hend, List.pairwise_map]
    exact h.distinct

/-- Where errors are and where reading goes on. The errors stand at indices of the tokens up to the
end of input, and no two at one index in front of that end. If no block is open at the first that
breaks a statement off, the tokens from the first place behind it where a statement can begin are
read as they are by themselves. -/
theorem Parsed.exists_placed (tokens : List Token) :
    ∃ placed : List (SyntaxError × Nat),
      placed.map Prod.fst = (ofTokens tokens).errors ∧ Placed (terminated tokens) placed ∧
      ∀ error j, placed.find? (·.1.panics) = some (error, j) →
        j < (terminated tokens).findIdx Token.isEnd →
        (∀ token ∈ (terminated tokens).take j, token.kind ≠ .leftBrace) →
        ∃ k program errors, IsLeast {k | j < k ∧ ResumesAt (terminated tokens) k} k ∧
          ofTokens tokens =
            { program := program ++ (ofTokens ((terminated tokens).drop k)).program
              errors := errors ++ [error] ++ (ofTokens ((terminated tokens).drop k)).errors } := by
  rw [← ofTokens_terminated]
  rcases terminated_eq_nil_or tokens with hnil | ⟨front, last, hfront, hlast⟩
  · rw [hnil]
    refine ⟨[], rfl, ⟨List.forall_mem_nil _, .nil, List.forall_mem_nil _, .nil⟩, ?_⟩
    intro error j hfind
    cases hfind
  · obtain ⟨carried, ending, f, hnumbered, hending, hlines⟩ := exists_numbered front hlast
    rw [hfront, ← hlines]
    -- The index of an error is its line number among the tokens that carry theirs.
    refine ⟨((ofTokens (carried ++ [ending])).errors.map fun error ↦
      (error, error.token.line)).map fun p ↦ (p.1.reline f, p.2), ?_,
      (hnumbered.placed hending).reline f, ?_⟩
    · rw [ofTokens_reline]
      simp [Parsed.reline, Function.comp_def]
    · intro error j hfind hj hbrace
      rw [List.map_map, List.find?_map] at hfind
      obtain ⟨found, hfound, heq⟩ := Option.map_eq_some_iff.mp hfind
      obtain ⟨rfl, rfl⟩ := Prod.mk.inj heq
      rw [List.findIdx_map] at hj
      rw [← List.map_take, List.forall_mem_map] at hbrace
      obtain ⟨k, program, errors, hleast, hparsed⟩ :=
        hnumbered.resumes hending hfound hj hbrace
      refine ⟨k, program.map (Stmt.reline f), errors.map (SyntaxError.reline f), ?_, ?_⟩
      · simpa only [resumesAt_map_reline] using hleast
      · rw [← List.map_drop, ofTokens_reline, ofTokens_reline, hparsed]
        simp [Parsed.reline]

end Lox
