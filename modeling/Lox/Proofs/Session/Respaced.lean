import Lox.Proofs.Session.Joined
import Lox.Proofs.Source.Spacing

/-!
# Sources with other spacing

Two sources with the same tokens up to their lines run alike up to lines. So blanks and comments
between the lexemes of a source never change what it does.
-/

namespace Lox

variable {source other : String}

theorem Parsed.ofTokens_unlined {tokens others : List Token}
    (h : others.map (Token.reline fun _ ↦ 0) = tokens.map (Token.reline fun _ ↦ 0)) :
    (ofTokens others).reline (fun _ ↦ 0) = (ofTokens tokens).reline (fun _ ↦ 0) := by
  rw [← ofTokens_reline, ← ofTokens_reline, h]

namespace Session

/-- Two programs that are the same up to lines do the same, and fail alike up to lines. -/
theorem execute_unlined {p q : List Stmt}
    (h : p.map (Stmt.reline fun _ ↦ 0) = q.map (Stmt.reline fun _ ↦ 0)) (session : Session) :
    (session.execute p).1 = (session.execute q).1 ∧
      (session.execute p).2.map (RuntimeError.reline fun _ ↦ 0) =
        (session.execute q).2.map (RuntimeError.reline fun _ ↦ 0) := by
  have hp := Stmt.execAll_relineAll (fun _ ↦ 0) p session
  have hq := Stmt.execAll_relineAll (fun _ ↦ 0) q session
  rw [Stmt.relineAll_eq_map] at hp hq
  rw [h, hq] at hp
  rw [execute_eq, execute_eq]
  exact ⟨(congrArg Prod.fst hp).symm, (congrArg Prod.snd hp).symm⟩

theorem run_of_scanned (h : (Scan.ofSource source).errors = []) (session : Session) :
    session.run source =
      let parsed := Parsed.ofTokens (Scan.ofSource source).tokens
      if parsed.errors = [] then
        ((session.execute parsed.program).1, (session.execute parsed.program).2.map .runtime)
      else (session, some (.parse parsed.errors)) := by
  by_cases hparse : (Parsed.ofTokens (Scan.ofSource source).tokens).errors = [] <;>
    simp [run, programOf, h, hparse]

theorem run_unlined (h : (Scan.ofSource source).errors = [])
    (hother : (Scan.ofSource other).errors = [])
    (htokens : (Scan.ofSource other).tokens.map (Token.reline fun _ ↦ 0) =
      (Scan.ofSource source).tokens.map (Token.reline fun _ ↦ 0)) (session : Session) :
    (session.run other).1 = (session.run source).1 ∧
      (session.run other).2.map (Failure.reline fun _ ↦ 0) =
        (session.run source).2.map (Failure.reline fun _ ↦ 0) := by
  have hparsed := Parsed.ofTokens_unlined htokens
  have hprogram := congrArg Parsed.program hparsed
  have herrors := congrArg Parsed.errors hparsed
  rw [run_of_scanned h, run_of_scanned hother]
  dsimp only [Parsed.reline] at hprogram herrors ⊢
  by_cases hnil : (Parsed.ofTokens (Scan.ofSource source).tokens).errors = []
  · have hnone : (Parsed.ofTokens (Scan.ofSource other).tokens).errors = [] := by
      simpa [hnil] using herrors
    obtain ⟨hsession, herror⟩ := execute_unlined hprogram session
    rw [if_pos hnil, if_pos hnone]
    refine ⟨hsession, ?_⟩
    simpa [Function.comp_def, Failure.reline] using congrArg (Option.map Failure.runtime) herror
  · have hsome : (Parsed.ofTokens (Scan.ofSource other).tokens).errors ≠ [] := by
      intro hnone
      rw [hnone] at herrors
      exact hnil (List.map_eq_nil_iff.mp herrors.symm)
    rw [if_neg hnil, if_neg hsome]
    exact ⟨rfl, congrArg (some ∘ Failure.parse) herrors⟩

/-- Scanning the lexemes of a source with other spacing gives no error and the same tokens up to
lines. If the source itself scans without an error, both are read and run alike up to lines. -/
theorem run_interleave {source first : String} {gaps : List String}
    (hfirst : Piece.Spacing first.toList) (hgaps : Piece.Separates gaps)
    (hlength : gaps.length = (lexemesOf source).length) :
    let text := first ++ Piece.interleave (lexemesOf source) gaps
    let scan := Scan.ofSource source
    let respaced := Scan.ofSource text
    respaced.errors = [] ∧
      respaced.tokens.map (Token.reline fun _ ↦ 0) = scan.tokens.map (Token.reline fun _ ↦ 0) ∧
      (scan.errors = [] →
        (Parsed.ofTokens respaced.tokens).reline (fun _ ↦ 0) =
            (Parsed.ofTokens scan.tokens).reline (fun _ ↦ 0) ∧
          ∀ session : Session,
            (session.run text).1 = (session.run source).1 ∧
              (session.run text).2.map (Failure.reline fun _ ↦ 0) =
                (session.run source).2.map (Failure.reline fun _ ↦ 0)) := by
  intro text scan respaced
  obtain ⟨herrors, htokens⟩ := Scan.ofSource_interleave hfirst hgaps hlength
  refine ⟨herrors, htokens, ?_⟩
  intro hscan
  refine ⟨Parsed.ofTokens_unlined htokens, ?_⟩
  intro session
  exact run_unlined hscan herrors htokens session

/-- A failing assignment, with comments and line breaks between its lexemes. -/
theorem run_interleave_assignment :
    Piece.Spacing "//x\n ".toList ∧ Piece.Separates ["\t", "\n//;\n", " ", "\r", ""] ∧
      ["\t", "\n//;\n", " ", "\r", ""].length = (lexemesOf "a=-1;// b").length ∧
      (Scan.ofSource "a=-1;// b").errors = [] ∧
      "//x\n " ++ Piece.interleave (lexemesOf "a=-1;// b") ["\t", "\n//;\n", " ", "\r", ""] =
        "//x\n a\t=\n//;\n- 1\r;" ∧
      (fresh.run "//x\n a\t=\n//;\n- 1\r;").2.map (Failure.reline fun _ ↦ 0) =
        (fresh.run "a=-1;// b").2.map (Failure.reline fun _ ↦ 0) := by
  have hfirst : Piece.Spacing "//x\n ".toList :=
    @Piece.Spacing.comment ['x'] [' '] (by decide) (.blank (.inl rfl) .nil)
  have hgaps : Piece.Separates ["\t", "\n//;\n", " ", "\r", ""] := by
    have hblank (c : Char) (h : c = ' ' ∨ c = '\t' ∨ c = '\r' ∨ c = '\n') (rest : List Char) :
        Piece.StartsBlank (c :: rest) := ⟨c, rest, rfl, h⟩
    have hsingle (c : Char) (h : c = ' ' ∨ c = '\t' ∨ c = '\r' ∨ c = '\n') :
        Piece.Spacing [c] := .blank h .nil
    refine .cons (hsingle '\t' (by decide)) (hblank '\t' (by decide) []) ?_
    refine .cons (@Piece.Spacing.blank '\n' _ (by decide)
      (@Piece.Spacing.comment [';'] [] (by decide) .nil)) (hblank '\n' (by decide) _) ?_
    refine .cons (hsingle ' ' (by decide)) (hblank ' ' (by decide) []) ?_
    exact .cons (hsingle '\r' (by decide)) (hblank '\r' (by decide) []) (.last .nil (.inl rfl))
  have hlength : ["\t", "\n//;\n", " ", "\r", ""].length = (lexemesOf "a=-1;// b").length := by
    decide +kernel
  have hscan : (Scan.ofSource "a=-1;// b").errors = [] :=
    List.isEmpty_iff.mp (by decide +kernel)
  have htext : "//x\n " ++ Piece.interleave (lexemesOf "a=-1;// b")
      ["\t", "\n//;\n", " ", "\r", ""] = "//x\n a\t=\n//;\n- 1\r;" := by
    decide +kernel
  have hrun := ((run_interleave hfirst hgaps hlength).2.2 hscan).2 fresh
  rw [htext] at hrun
  exact ⟨hfirst, hgaps, hlength, hscan, htext, hrun.2⟩

end Session

end Lox
