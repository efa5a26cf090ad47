import Lox.Session
import Lox.Proofs.Grammar.Acceptance
import Lox.Proofs.Relining.Reading
import Lox.Proofs.Relining.Running
import Lox.Proofs.Source.Joining

/-!
# Joined sources

Running sources one after the other leaves what one run of their join leaves, where sources with
errors in their text are left out of the join.
-/

namespace Lox

/-! ## Programs of sources -/

/-- The tokens of a source in front of the end of input. -/
def wordsOf (source : String) : List Token := Piece.tokensFrom 1 (Piece.ofText source.toList)

theorem wordsOf_kind_ne_eof (source : String) : ∀ token ∈ wordsOf source, token.kind ≠ .eof :=
  Piece.tokensFrom_kind_ne_eof 1 (Piece.ofText_role_ne_eof _)

theorem wordsOf_append_newline {a b : String}
    (h : ∀ piece ∈ Piece.ofText a.toList, piece.role ≠ .unterminated) :
    wordsOf (a ++ "\n" ++ b) =
      wordsOf a ++ (wordsOf b).map (Token.reline (· + (a.toList.count '\n' + 1))) := by
  have htext : (a ++ "\n" ++ b).toList = a.toList ++ '\n' :: b.toList := by simp
  rw [wordsOf, htext, Piece.tokensFrom_append_newline _ _ h]
  rfl

theorem programOf_eq_ok_iff {source : String} {program : List Stmt} :
    programOf source = .ok program ↔
      (Scan.ofSource source).errors = [] ∧
        Parsed.ofTokens (Scan.ofSource source).tokens = { program, errors := [] } := by
  rw [programOf]
  by_cases hscan : (Scan.ofSource source).errors = []
  · dsimp only
    generalize Parsed.ofTokens (Scan.ofSource source).tokens = parsed
    rcases parsed with ⟨read, _ | errors⟩ <;> simp [hscan]
  · simp [hscan]

theorem programOf_eq_ok_iff_derivation {source : String} {program : List Stmt} :
    programOf source = .ok program ↔
      (Scan.ofSource source).errors = [] ∧
        ∃ p : List Declaration, Declaration.tokensOfAll p = wordsOf source ∧
          Declaration.stmtsOfAll p = program := by
  have hread : Parsed.ofTokens (wordsOf source ++ [.endOfInput (1 + source.toList.count '\n')]) =
      { program, errors := [] } ↔ _ :=
    Parsed.ofTokens_eq_iff (wordsOf_kind_ne_eof source) rfl
  rw [programOf_eq_ok_iff, ← hread, Scan.ofSource, Scan.tokens_ofText]
  rfl

theorem programOf_empty : programOf "" = .ok [] :=
  programOf_eq_ok_iff_derivation.mpr ⟨by simp [Scan.ofSource, Scan.errors_ofText, Piece.errorsFrom],
    [], by simp [wordsOf, Piece.tokensFrom, Declaration.tokensOfAll], rfl⟩

/-- Declarations stay declarations where their lines are different. -/
theorem Declaration.exists_reline (f : Nat → Nat) {p : List Declaration}
    (hp : ∀ token ∈ tokensOfAll p, token.kind ≠ .eof) :
    ∃ q : List Declaration, tokensOfAll q = (tokensOfAll p).map (Token.reline f) ∧
      stmtsOfAll q = Stmt.relineAll f (stmtsOfAll p) := by
  have hread := Parsed.ofTokens_reline f (tokensOfAll p ++ [.endOfInput 0])
  rw [Parsed.ofTokens_declarations hp rfl [], List.map_append] at hread
  have hkind : ∀ token ∈ (tokensOfAll p).map (Token.reline f), token.kind ≠ .eof := by
    simpa using hp
  rw [Stmt.relineAll_eq_map]
  exact (Parsed.ofTokens_eq_iff hkind rfl).mp hread

theorem programOf_append {a b : String} {p q : List Stmt} (ha : programOf a = .ok p)
    (hb : programOf b = .ok q) :
    programOf (a ++ "\n" ++ b) =
      .ok (p ++ Stmt.relineAll (· + (a.toList.count '\n' + 1)) q) := by
  obtain ⟨haerrors, p, hptokens, rfl⟩ := programOf_eq_ok_iff_derivation.mp ha
  obtain ⟨hberrors, q, hqtokens, rfl⟩ := programOf_eq_ok_iff_derivation.mp hb
  have hends : ∀ piece ∈ Piece.ofText a.toList, piece.role ≠ .unterminated := by
    rw [Scan.ofSource, Scan.errors_ofText] at haerrors
    intro piece hpiece hrole
    have hfault := Scan.fault?_eq_none haerrors piece hpiece
    simp [Piece.fault?, hrole] at hfault
  have hqkind : ∀ token ∈ Declaration.tokensOfAll q, token.kind ≠ .eof := by
    rw [hqtokens]
    exact wordsOf_kind_ne_eof b
  obtain ⟨r, hrtokens, hrstmts⟩ := Declaration.exists_reline (· + (a.toList.count '\n' + 1)) hqkind
  refine programOf_eq_ok_iff_derivation.mpr ⟨?_, p ++ r, ?_, ?_⟩
  · rw [Scan.ofSource, Scan.errors_ofText] at haerrors hberrors ⊢
    have htext : (a ++ "\n" ++ b).toList = a.toList ++ '\n' :: b.toList := by simp
    rw [htext, Piece.errorsFrom_append_newline _ _ hends, haerrors, hberrors]
    rfl
  · rw [Declaration.tokensOfAll_append, hptokens, hrtokens, hqtokens,
      wordsOf_append_newline hends]
  · rw [Declaration.stmtsOfAll_append, hrstmts]

/-- Nothing is wrong with the text of a source. -/
def isSound (source : String) : Bool :=
  (Scan.ofSource source).errors.isEmpty &&
    (Parsed.ofTokens (Scan.ofSource source).tokens).errors.isEmpty

theorem isSound_iff {source : String} :
    isSound source ↔ ∃ program, programOf source = .ok program := by
  rw [isSound, programOf]
  by_cases hscan : (Scan.ofSource source).errors = []
  · by_cases hparse : (Parsed.ofTokens (Scan.ofSource source).tokens).errors = [] <;>
      simp [hscan, hparse]
  · simp [hscan]

theorem isSound_append {a b : String} (ha : isSound a) (hb : isSound b) :
    isSound (a ++ "\n" ++ b) := by
  obtain ⟨p, hp⟩ := isSound_iff.mp ha
  obtain ⟨q, hq⟩ := isSound_iff.mp hb
  exact isSound_iff.mpr ⟨_, programOf_append hp hq⟩

/-! ## Two sources -/

theorem Stmt.execAll_append (session : Session) (p q : List Stmt) :
    execAll session (p ++ q) =
      match execAll session p with
      | (session, none) => execAll session q
      | (session, some error) => (session, some error) := by
  induction p generalizing session with
  | nil => rfl
  | cons s p ih =>
      rw [List.cons_append, execAll, execAll]
      rcases s.exec session with ⟨session, _ | error⟩
      · exact ih session
      · rfl

namespace Session

theorem run_of_ok {source : String} {program : List Stmt} (h : programOf source = .ok program)
    (session : Session) :
    session.run source =
      ((Stmt.execAll session program).1, (Stmt.execAll session program).2.map .runtime) := by
  rw [run, h]
  simp only [execute_eq]

theorem run_fst_of_not_sound {source : String} (h : isSound source = false) (session : Session) :
    (session.run source).1 = session := by
  rw [run]
  cases hprogram : programOf source with
  | error failure => rfl
  | ok program => simp [isSound_iff.mpr ⟨program, hprogram⟩] at h

/-- No source in the list fails while it runs. -/
def runsThrough (session : Session) : List String → Bool
  | [] => true
  | source :: rest =>
      (session.run source).2.all Failure.isStatic && (session.run source).1.runsThrough rest

def runAll (session : Session) (sources : List String) : Session :=
  sources.foldl (fun session source ↦ (session.run source).1) session

theorem run_snd_eq_none {session : Session} {source : String} (hsound : isSound source)
    (h : (session.run source).2.all Failure.isStatic) : (session.run source).2 = none := by
  obtain ⟨program, hprogram⟩ := isSound_iff.mp hsound
  rw [run_of_ok hprogram] at h ⊢
  cases herror : (Stmt.execAll session program).2 with
  | none => rfl
  | some error => simp [herror, Failure.isStatic, Failure.stage, Stage.isStatic] at h

/-- The second of two sources goes on where the first ended. -/
theorem run_append {a b : String} (ha : isSound a) (hb : isSound b) {session : Session}
    (h : (session.run a).2 = none) :
    session.run (a ++ "\n" ++ b) =
      (((session.run a).1.run b).1,
        ((session.run a).1.run b).2.map (Failure.reline (· + (a.toList.count '\n' + 1)))) := by
  obtain ⟨p, hp⟩ := isSound_iff.mp ha
  obtain ⟨q, hq⟩ := isSound_iff.mp hb
  rw [run_of_ok hp] at h ⊢
  rw [run_of_ok (programOf_append hp hq), run_of_ok hq, Stmt.execAll_append]
  rcases hleft : Stmt.execAll session p with ⟨middle, _ | error⟩
  · simp [Stmt.execAll_relineAll, Function.comp_def, Failure.reline]
  · simp [hleft] at h

/-! ## Sources in a row -/

theorem runAll_append (session : Session) (front rest : List String) :
    session.runAll (front ++ rest) = (session.runAll front).runAll rest :=
  List.foldl_append

theorem runsThrough_append (session : Session) (front rest : List String) :
    session.runsThrough (front ++ rest) =
      (session.runsThrough front && (session.runAll front).runsThrough rest) := by
  induction front generalizing session with
  | nil => rfl
  | cons source front ih => simp [runsThrough, ih, runAll, Bool.and_assoc]

theorem runAll_filter (session : Session) (sources : List String) :
    session.runAll (sources.filter isSound) = session.runAll sources := by
  induction sources generalizing session with
  | nil => rfl
  | cons source rest ih =>
      cases h : isSound source with
      | true => simpa [h, runAll] using ih (session.run source).1
      | false => simpa [h, runAll, run_fst_of_not_sound h] using ih session

theorem runsThrough_filter {session : Session} {sources : List String}
    (h : session.runsThrough sources) : session.runsThrough (sources.filter isSound) := by
  induction sources generalizing session with
  | nil => rfl
  | cons source rest ih =>
      obtain ⟨hsource, hrest⟩ := Bool.and_eq_true_iff.mp h
      cases hsound : isSound source with
      | true => simpa [hsound, runsThrough] using ⟨by simpa using hsource, ih hrest⟩
      | false =>
          rw [run_fst_of_not_sound hsound] at hrest
          simpa [hsound] using ih hrest

end Session

/-! ## The join -/

/-- The text above the last of some sources that are joined. -/
def textAbove : List String → String
  | [] => ""
  | source :: rest => source ++ "\n" ++ textAbove rest

theorem intercalate_snoc (front : List String) (source : String) :
    "\n".intercalate (front ++ [source]) = textAbove front ++ source := by
  induction front with
  | nil => simp [textAbove]
  | cons a front ih =>
      rw [List.cons_append, String.intercalate_cons_of_ne_nil (by simp), ih, textAbove,
        String.append_assoc, String.append_assoc, String.append_assoc]

theorem Session.run_textAbove {front : List String} {source : String} {session : Session}
    (hfront : ∀ above ∈ front, isSound above) (hsource : isSound source)
    (h : session.runsThrough front) :
    isSound (textAbove front ++ source) ∧
      session.run (textAbove front ++ source) =
        (((session.runAll front).run source).1,
          ((session.runAll front).run source).2.map
            (Failure.reline (· + (textAbove front).toList.count '\n'))) := by
  induction front generalizing session with
  | nil =>
      simp [textAbove, hsource, runAll, Failure.reline_same]
  | cons above front ih =>
      obtain ⟨habove, hfront⟩ := List.forall_mem_cons.mp hfront
      obtain ⟨hoks, hrest⟩ := Bool.and_eq_true_iff.mp h
      obtain ⟨hsound, hrun⟩ := ih hfront hrest
      have hnone := run_snd_eq_none habove hoks
      have htext : textAbove (above :: front) ++ source =
          above ++ "\n" ++ (textAbove front ++ source) := String.append_assoc
      have hlines : (Failure.reline (· + (above.toList.count '\n' + 1))) ∘
          Failure.reline (· + (textAbove front).toList.count '\n') =
            Failure.reline (· + (textAbove (above :: front)).toList.count '\n') := by
        funext failure
        have hline : ∀ line, line + (textAbove front).toList.count '\n' +
            (above.toList.count '\n' + 1) =
              line + (textAbove (above :: front)).toList.count '\n' := by
          intro line
          simp [textAbove]
          omega
        rw [Function.comp_apply, Failure.reline_reline]
        exact congrArg (Failure.reline · failure) (funext hline)
      rw [htext, run_append habove hsound hnone, hrun, Option.map_map, hlines]
      exact ⟨isSound_append habove hsound, rfl⟩

/-- The sources whose text is without errors, on different lines. -/
def joinSound (sources : List String) : String := "\n".intercalate (sources.filter isSound)

theorem joinSound_of_last {front rest : List String} {source : String} (hsource : isSound source)
    (hrest : ∀ later ∈ rest, isSound later = false) :
    joinSound (front ++ source :: rest) = textAbove (front.filter isSound) ++ source := by
  have hnone : rest.filter isSound = [] := List.filter_eq_nil_iff.mpr (by simpa using hrest)
  rw [joinSound, List.filter_append, List.filter_cons_of_pos hsource, hnone, intercalate_snoc]

theorem joinSound_of_none {sources : List String} (h : ∀ source ∈ sources, isSound source = false) :
    joinSound sources = "" := by
  have hnone : sources.filter isSound = [] := List.filter_eq_nil_iff.mpr (by simpa using h)
  rw [joinSound, hnone, String.intercalate_nil]

theorem exists_last_sound (sources : List String) :
    (∀ source ∈ sources, isSound source = false) ∨
      ∃ front source rest, sources = front ++ source :: rest ∧ isSound source ∧
        ∀ later ∈ rest, isSound later = false := by
  induction sources with
  | nil => simp
  | cons source sources ih =>
      rcases ih with hnone | ⟨front, last, rest, rfl, hlast, hrest⟩
      · cases hsource : isSound source with
        | true => exact .inr ⟨[], source, sources, rfl, hsource, hnone⟩
        | false => exact .inl (List.forall_mem_cons.mpr ⟨hsource, hnone⟩)
      · exact .inr ⟨source :: front, last, rest, rfl, hlast, hrest⟩

namespace Session

theorem runAll_of_none {sources : List String} (h : ∀ source ∈ sources, isSound source = false)
    (session : Session) : session.runAll sources = session := by
  have hnone : sources.filter isSound = [] := List.filter_eq_nil_iff.mpr (by simpa using h)
  rw [← runAll_filter, hnone]
  rfl

theorem run_joinSound_of_last {front rest : List String} {source : String} {session : Session}
    (h : session.runsThrough (front ++ source :: rest).dropLast) (hsource : isSound source)
    (hrest : ∀ later ∈ rest, isSound later = false) :
    isSound (joinSound (front ++ source :: rest)) ∧
      session.run (joinSound (front ++ source :: rest)) =
        (((session.runAll front).run source).1,
          ((session.runAll front).run source).2.map
            (Failure.reline (· + (textAbove (front.filter isSound)).toList.count '\n'))) := by
  have hfront : session.runsThrough front := by
    rw [List.dropLast_append_cons, runsThrough_append] at h
    exact (Bool.and_eq_true_iff.mp h).1
  have hrun := run_textAbove (fun _ habove ↦ (List.mem_filter.mp habove).2) hsource
    (runsThrough_filter hfront)
  rwa [runAll_filter, ← joinSound_of_last hsource hrest] at hrun

/-- Running the join of sources leaves what running them in turn leaves, and ends as the last of
them that has no error in its text, up to line numbers. -/
theorem run_joinSound {session : Session} {sources : List String}
    (h : session.runsThrough sources.dropLast) :
    let joined := joinSound sources
    isSound joined ∧
      (session.run joined).1 = session.runAll sources ∧
      (∀ front source rest, sources = front ++ source :: rest → isSound source →
        (∀ later ∈ rest, isSound later = false) →
          ∃ above, joined = above ++ source ∧
            (session.run joined).2 = ((session.runAll front).run source).2.map
              (Failure.reline (· + above.toList.count '\n'))) ∧
      ((∀ source ∈ sources, isSound source = false) →
        joined = "" ∧ (session.run joined).2 = none) ∧
      ∀ (state : Session) (source : String), isSound source = false →
        (state.run source).1 = state := by
  intro joined
  have hempty : isSound "" ∧ session.run "" = (session, none) :=
    ⟨isSound_iff.mpr ⟨[], programOf_empty⟩, run_of_ok programOf_empty session⟩
  have hsound : isSound joined ∧ (session.run joined).1 = session.runAll sources := by
    rcases exists_last_sound sources with hnone | ⟨front, source, rest, rfl, hsource, hrest⟩
    · rw [show joined = "" from joinSound_of_none hnone, runAll_of_none hnone, hempty.2]
      exact ⟨hempty.1, rfl⟩
    · obtain ⟨hjoined, hrun⟩ := run_joinSound_of_last h hsource hrest
      refine ⟨hjoined, ?_⟩
      rw [hrun, runAll_append]
      exact (runAll_of_none hrest _).symm
  refine ⟨hsound.1, hsound.2, ?_, ?_, ?_⟩
  · rintro front source rest rfl hsource hrest
    exact ⟨_, joinSound_of_last hsource hrest, by rw [(run_joinSound_of_last h hsource hrest).2]⟩
  · intro hnone
    have hjoined : joined = "" := joinSound_of_none hnone
    exact ⟨hjoined, by rw [hjoined, hempty.2]⟩
  · intro state source hsource
    exact run_fst_of_not_sound hsource state

/-- A declaration in front of a comment, a source with an error, and a use of the name. -/
theorem run_joinSound_kept_name :
    fresh.runsThrough ["var a = true; // kept", "print ;"] ∧
      (fresh.run (joinSound ["var a = true; // kept", "print ;", "print a;"])).1.sink.written =
        ["true"] := by
  have h : fresh.runsThrough ["var a = true; // kept", "print ;"] := by decide +kernel
  refine ⟨h, ?_⟩
  rw [(@run_joinSound fresh ["var a = true; // kept", "print ;", "print a;"] h).2.1]
  decide +kernel

end Session

end Lox
