import Lox.Proofs.Descent.Expressions

/-!
# Programs read by descent

Each walk of a statement comes to an end, and behind it the reader that takes one token after the
other stands where the walk has stopped, also if the walk has gone on behind an error. So the whole
program comes to an end, with the statements and errors of that reader.
-/

namespace Lox.Descent.Input

open PartialStmt

variable {input : Input} {i : Nat} {s t u v : State} {reader : Unfinished}

/-! ## Where statements start and end -/

/-- The reader can start a statement at the cursor. -/
def Starts (input : Input) (reader : Unfinished) (s : State) : Prop :=
  s.current < input.stop ∧ ((input.token s.current).kind = .rightBrace → reader.outer = [])

theorem readingFrom_between (h : s.current < input.stop) (reader : Unfinished) :
    input.readingFrom reader .between s =
      input.reading ((reader.standing .between s.errors).readBetween (input.token s.current))
        (s.current + 1) := by
  rw [readingFrom, reading_of_lt h, Unfinished.read_of_between rfl]

theorem Passes.lt_stop {n : Nat} (h : input.Passes (n + 1) s t) : s.current < input.stop := by
  have hcurrent := h.current_eq
  have hstop := h.le_stop
  omega

theorem readingFrom_variable (h : input.Passes 1 s t)
    (hkind : (input.token s.current).kind = .keyword .varWord) (reader : Unfinished) :
    input.readingFrom reader .between s = input.readingFrom reader (.within .unnamed) t := by
  rw [readingFrom_between h.lt_stop, readingFrom, h.current_eq, h.errors_eq]
  simp [Unfinished.readBetween, Unfinished.standing, hkind]

theorem readingFrom_print (h : input.Passes 1 s t)
    (hkind : (input.token s.current).kind = .keyword .printWord) (reader : Unfinished) :
    input.readingFrom reader .between s =
      input.readingFrom reader (.within (.waiting (.print (input.token s.current)) [])) t := by
  rw [readingFrom_between h.lt_stop, readingFrom, h.current_eq, h.errors_eq]
  simp [Unfinished.readBetween, Unfinished.standing, hkind]

theorem readingFrom_leftBrace (h : input.Passes 1 s t)
    (hkind : (input.token s.current).kind = .leftBrace) (reader : Unfinished) :
    input.readingFrom reader .between s = input.readingFrom reader.openBlock .between t := by
  rw [readingFrom_between h.lt_stop, readingFrom, h.current_eq, h.errors_eq]
  simp [Unfinished.readBetween, Unfinished.standing, Unfinished.openBlock, hkind]

theorem readingFrom_rightBrace (h : input.Passes 1 s t)
    (hkind : (input.token s.current).kind = .rightBrace) (reader : Unfinished)
    (body : List Stmt) :
    input.readingFrom { reader.openBlock with body } .between s =
      input.readingFrom (reader.add (.block body.reverse)) .between t := by
  rw [readingFrom_between h.lt_stop, readingFrom, h.current_eq, h.errors_eq]
  simp [Unfinished.readBetween, Unfinished.standing, Unfinished.openBlock, Unfinished.add, hkind]

/-- Any other token that can start a statement starts an expression. -/
theorem Starts.readingFrom_expression (h : input.Starts reader s)
    (hvar : (input.token s.current).kind ≠ .keyword .varWord)
    (hprint : (input.token s.current).kind ≠ .keyword .printWord)
    (hbrace : (input.token s.current).kind ≠ .leftBrace) :
    input.readingFrom reader .between s =
      input.readingFrom reader (.within (.waiting .expression [])) s := by
  rw [readingFrom_between h.1, readingFrom_within, Unfinished.readBetween]
  split
  next hkind => exact absurd hkind hvar
  next hkind => exact absurd hkind hprint
  next hkind => exact absurd hkind hbrace
  next hkind houter =>
    have hnil := h.2 hkind
    simp [Unfinished.standing, hnil] at houter
  · rw [Unfinished.readWithin_standing]

/-! ## Statements -/

/-- A walk from `s` to `t` that has read a statement, or has broken off, with a reader that stood
at the position. -/
structure StmtRead (input : Input) (position : Position) (s : State)
    (result : Except SyntaxError Stmt) (t : State) : Prop where
  moves : Moves input.stop s t
  advances : ∀ stmt, result = .ok stmt → s.current < t.current
  follows : ∀ reader, (position = .between → input.Starts reader s) →
    input.Follows (input.readingFrom reader position s) reader
      (fun stmt ↦ input.readingFrom (reader.add stmt) .between) result t

variable {position : Position} {result : Except SyntaxError Stmt}

/-- What stands in front of the rest of a statement. -/
theorem StmtRead.of_moves {stmt : PartialStmt} (h : Moves input.stop s t)
    (hread : input.StmtRead (.within stmt) t result u)
    (heq : ∀ reader, (position = .between → input.Starts reader s) →
      input.readingFrom reader position s = input.readingFrom reader (.within stmt) t) :
    input.StmtRead position s result u := by
  refine ⟨h.trans hread.moves, ?_, ?_⟩
  · intro completed hcompleted
    exact Nat.lt_of_le_of_lt h.le (hread.advances completed hcompleted)
  · intro reader hstarts
    rw [heq reader hstarts]
    exact hread.follows reader (by simp)

/-- A semicolon completes the statement, and any other token is refused. -/
theorem semicolon_ends {completed : Stmt} {fault : SyntaxFault} (hs : s.current ≤ input.stop)
    (stmt : PartialStmt)
    (hcomplete : (input.token s.current).kind = .semicolon →
      stmt.read (input.token s.current) = ([], .complete completed))
    (hrefuse : (input.token s.current).kind ≠ .semicolon →
      stmt.read (input.token s.current) = ([], .refuse fault)) :
    Ends (do let _ ← input.tokens.expect .semicolon fault; return completed : Rule Stmt).run s
      (input.StmtRead (.within stmt) s) := by
  by_cases hkind : (input.token s.current).kind = .semicolon
  · refine (expect_ends_of_eq hs (by simp) hkind fault).rule ?_ ?_
    · rintro _ t ⟨-, hpasses⟩
      refine .pure ⟨hpasses.toMoves, fun _ _ ↦ ?_, fun reader _ ↦ ?_⟩
      · exact hpasses.current_eq ▸ Nat.lt_succ_self _
      · exact readingFrom_of_complete hpasses (hcomplete hkind) reader
    · rintro _ t ⟨heq, -⟩
      cases heq
  · refine (expect_ends_of_ne hs (by simp) hkind fault).rule ?_ ?_
    · rintro _ t ⟨heq, -⟩
      cases heq
    · rintro _ t ⟨heq, hpasses⟩
      cases heq
      refine ⟨hpasses.toMoves, by simp, fun reader _ ↦ ?_⟩
      exact follows_of_refuse hpasses (hrefuse hkind) reader _

theorem ended_ends (hs : s.current ≤ input.stop) (clause : Clause) :
    Ends (input.tokens.ended clause).run s
      (input.StmtRead (.within (.waiting clause [])) s) := by
  rw [Tokens.ended]
  refine (assignment_reads hs).rule ?_ ?_
  · rintro value t ⟨hread, hends⟩
    have hend := hends value rfl
    have hlast := read_ready_of_closing hend.precedence_eq_zero (hend.equal rfl) clause
      ⟨[], value⟩
    refine (semicolon_ends hread.moves.le_stop (.ready clause ⟨[], value⟩) ?_ ?_).mono ?_
    · intro hkind
      simp [hlast, Operand.close, readClosing, hkind]
    · intro hkind
      simp [hlast, Operand.close, readClosing]
    · intro result u hstmt
      refine hstmt.of_moves hread.moves fun reader _ ↦ ?_
      exact hread.follows reader clause [] fun _ ↦ trivial
  · rintro error t ⟨hread, -⟩
    refine ⟨hread.moves, by simp, fun reader _ ↦ ?_⟩
    exact hread.follows reader clause [] fun _ ↦ trivial

theorem variableDeclaration_ends (hs : s.current ≤ input.stop) :
    Ends input.tokens.variableDeclaration.run s (input.StmtRead (.within .unnamed) s) := by
  rw [Tokens.variableDeclaration]
  by_cases hkind : (input.token s.current).kind = .identifier
  · refine (expect_ends_of_eq hs (by simp) hkind _).rule ?_ ?_
    · rintro _ t ⟨heq, hpasses⟩
      cases heq
      have hname : PartialStmt.unnamed.read (input.token s.current) =
          ([], .more (.named (input.token s.current))) := by
        rw [PartialStmt.read, if_pos hkind]
      by_cases hequal : (input.token t.current).kind = .equal
      · refine .taken hpasses.le_stop (by simp) (by simpa using hequal) fun u hequals ↦ ?_
        refine (ended_ends hequals.le_stop _).mono fun result v hstmt ↦ ?_
        refine hstmt.of_moves (hpasses.trans hequals).toMoves fun reader _ ↦ ?_
        rw [readingFrom_of_more hpasses hname]
        exact readingFrom_of_more hequals (by simp [PartialStmt.read, hequal]) reader
      · refine .left hpasses.le_stop (by simp) (by simpa using hequal) fun u hlook ↦ ?_
        have hcurrent := hlook.current_same
        refine (semicolon_ends hlook.le_stop (.named (input.token s.current)) ?_ ?_).mono ?_
        · intro hsemicolon
          simp [PartialStmt.read, hsemicolon]
        · intro hsemicolon
          rw [hcurrent] at hsemicolon ⊢
          simp only [PartialStmt.read]
        · intro result v hstmt
          refine hstmt.of_moves (hpasses.trans hlook).toMoves fun reader _ ↦ ?_
          rw [readingFrom_of_more hpasses hname, hlook.readingFrom_eq]
    · rintro _ t ⟨heq, -⟩
      cases heq
  · refine (expect_ends_of_ne hs (by simp) hkind _).rule ?_ ?_
    · rintro _ t ⟨heq, -⟩
      cases heq
    · rintro _ t ⟨heq, hpasses⟩
      cases heq
      refine ⟨hpasses.toMoves, by simp, fun reader _ ↦ ?_⟩
      exact follows_of_refuse hpasses (by simp [PartialStmt.read, hkind]) reader _

/-! ## Going on behind an error -/

/-- Reading goes on behind a semicolon, and in front of a token that can only begin a statement. -/
theorem reading_broken_of_resume (hlt : i < input.stop)
    (h : (input.token (i - 1)).kind = .semicolon ∨ (input.token i).kind.startsDeclaration = true)
    (hreader : reader.position = .between) :
    input.reading (reader.broken (input.token (i - 1))) i = input.reading reader i := by
  rw [reading_of_lt hlt, reading_of_lt hlt, Unfinished.broken_read_of_resume hreader h]

/-- A walk from `s` to `t` that leaves out what a reader leaves out from `i` on, behind an error at
the token. -/
structure Skips (input : Input) (token : Token) (i : Nat) (s t : State) : Prop where
  moves : Moves input.stop s t
  errors_eq : t.errors = s.errors
  follows : ∀ reader : Unfinished, reader.position = .between →
    input.reading (reader.broken token) i = input.reading reader t.current

theorem Skips.behind (h : input.Passes 1 s t)
    (hskips : input.Skips (input.token (t.current - 1)) t.current t u) :
    input.Skips (input.token s.current) (s.current + 1) s u := by
  have hnext := h.current_eq
  have hfollows := hskips.follows
  rw [h.token_previous, hnext] at hfollows
  exact ⟨h.toMoves.trans hskips.moves, hskips.errors_eq.trans h.errors_eq, hfollows⟩

theorem seekBoundary_ends {s : State} (hs : s.current ≤ input.stop) :
    Ends input.tokens.seekBoundary s fun _ t ↦
      input.Skips (input.token (s.current - 1)) s.current s t := by
  rw [Tokens.seekBoundary]
  refine (atEnd_ends hs).bind ?_
  rintro found t ⟨hfound, hpasses⟩
  split
  next hend =>
    refine .pure ⟨hpasses.toMoves, hpasses.errors_eq, fun reader hreader ↦ ?_⟩
    rw [hpasses.current_same, hfound.mp hend, reading_of_le (Nat.le_refl _),
      reading_of_le (Nat.le_refl _), Unfinished.broken_finish hreader]
  next hend =>
    have hlt := Nat.lt_of_le_of_ne hs (mt hfound.mpr hend)
    refine hpasses.previous_ends.bind ?_
    rintro _ u ⟨rfl, hlook⟩
    split
    next hsemicolon =>
      refine .pure ⟨hlook.toMoves, hlook.errors_eq, fun reader hreader ↦ ?_⟩
      rw [hlook.current_same]
      exact reading_broken_of_resume hlt (.inl hsemicolon) hreader
    next hsemicolon =>
      refine hlook.peek_ends.bind ?_
      rintro _ v ⟨rfl, hboth⟩
      split
      next hstarts =>
        refine .pure ⟨hboth.toMoves, hboth.errors_eq, fun reader hreader ↦ ?_⟩
        rw [hboth.current_same]
        exact reading_broken_of_resume hlt (.inr hstarts) hreader
      next hstarts =>
        -- The token is no boundary, so the reader leaves it out as well.
        refine (advance_ends (hboth.current_same ▸ hlt)).bind ?_
        rintro _ w ⟨_, hadvance⟩
        have hpassed : input.Passes 1 s w := hboth.trans hadvance
        have hnext := hpassed.current_eq
        refine (seekBoundary_ends hpassed.le_stop).mono fun _ x hrest ↦ ?_
        have hskips := hrest.behind hpassed
        refine ⟨hskips.moves, hskips.errors_eq, fun reader hreader ↦ ?_⟩
        rw [reading_of_lt hlt, Unfinished.broken_read (not_or.mpr ⟨hsemicolon, hstarts⟩)]
        exact hskips.follows reader hreader
termination_by input.stop - s.current

/-- The token at the error is skipped, and what the reader skips behind it. -/
theorem synchronize_ends (hs : s.current ≤ input.stop) :
    Ends input.tokens.synchronize s fun _ t ↦
      input.Skips (input.token s.current) (s.current + 1) s t ∧
        (s.current < input.stop → s.current < t.current) := by
  rw [Tokens.synchronize]
  rcases Nat.lt_or_eq_of_le hs with hlt | hstop
  · refine (advance_ends hlt).bind ?_
    rintro _ t ⟨_, hadvance⟩
    refine (seekBoundary_ends hadvance.le_stop).mono fun _ u hrest ↦ ?_
    refine ⟨hrest.behind hadvance, fun _ ↦ ?_⟩
    exact Nat.lt_of_lt_of_le (hadvance.current_eq ▸ Nat.lt_succ_self _) hrest.moves.le
  · refine (advance_ends_of_eq hstop).bind fun _ t hadvance ↦ ?_
    refine (seekBoundary_ends hadvance.le_stop).mono fun _ u hrest ↦ ?_
    refine ⟨⟨hadvance.toMoves.trans hrest.moves, hrest.errors_eq.trans hadvance.errors_eq, ?_⟩,
      fun hlt ↦ absurd hstop (Nat.ne_of_lt hlt)⟩
    intro reader hreader
    have hcurrent := hadvance.current_eq
    rw [← hrest.follows reader hreader, reading_of_le (by omega), reading_of_le (by omega),
      Unfinished.broken_finish hreader, Unfinished.broken_finish hreader]

/-! ## Declarations and blocks -/

/-- A walk from `s` to `t` that has read a declaration, or gone on behind an error in it. -/
structure DeclarationRead (input : Input) (s : State) (result : Option Stmt) (t : State) :
    Prop where
  moves : Moves input.stop s t
  advances : s.current < input.stop → s.current < t.current
  follows : ∀ reader, input.Starts reader s →
    input.readingFrom reader .between s =
      input.readingFrom (result.elim reader reader.add) .between t

/-- A walk from `s`, behind the opening brace of a block, to `t`. -/
structure BlockRead (input : Input) (s : State) (result : Except SyntaxError (List Stmt))
    (t : State) : Prop where
  moves : Moves input.stop s t
  advances : ∀ body, result = .ok body → s.current < t.current
  follows : ∀ reader : Unfinished,
    input.Follows (input.readingFrom reader.openBlock .between s) reader
      (fun body ↦ input.readingFrom (reader.add (.block body)) .between) result t

theorem Passes.starts_iff (h : input.Passes 0 s t) (reader : Unfinished) :
    input.Starts reader t ↔ input.Starts reader s := by
  rw [Starts, Starts, h.current_eq, Nat.add_zero]

theorem StmtRead.of_passes (h : input.Passes 0 s t) (hread : input.StmtRead position t result u) :
    input.StmtRead position s result u := by
  have hcurrent := h.current_eq
  refine ⟨h.toMoves.trans hread.moves, fun stmt hstmt ↦ ?_, fun reader hstarts ↦ ?_⟩
  · have hadvances := hread.advances stmt hstmt
    omega
  · rw [h.readingFrom_eq]
    exact hread.follows reader fun hbetween ↦ (h.starts_iff reader).mpr (hstarts hbetween)

theorem StmtRead.kept {stmt : Stmt} (hread : input.StmtRead .between s (.ok stmt) t) :
    input.DeclarationRead s (some stmt) t :=
  ⟨hread.moves, fun _ ↦ hread.advances stmt rfl, fun reader h ↦ hread.follows reader fun _ ↦ h⟩

theorem StmtRead.dropped {error : SyntaxError}
    (hread : input.StmtRead .between s (.error error) t) :
    Ends (do note error; input.tokens.synchronize; return none) t (input.DeclarationRead s) := by
  refine (note_ends hread.moves.le_stop error).bind ?_
  rintro _ u ⟨hcurrent, hnoted, hmoves⟩
  refine (synchronize_ends hmoves.le_stop).bind ?_
  rintro _ v ⟨hskips, hadvances⟩
  have hle := hread.moves.le
  have hlast := hskips.moves.le
  refine .pure ⟨(hread.moves.trans hmoves).trans hskips.moves, fun hlt ↦ by omega, ?_⟩
  intro reader hstarts
  obtain ⟨htoken, hreading⟩ := hread.follows reader fun _ ↦ hstarts
  rw [hreading, htoken, ← hcurrent, hskips.follows _ rfl, readingFrom, hskips.errors_eq, hnoted]
  rfl

/-- A block that has been read is a statement. -/
theorem BlockRead.statement {result : Except SyntaxError (List Stmt)} (h : input.Passes 1 s t)
    (hkind : (input.token s.current).kind = .leftBrace) (hread : input.BlockRead t result u) :
    input.StmtRead .between s (result.map .block) u := by
  have hnext := h.current_eq
  have hle := hread.moves.le
  refine ⟨h.toMoves.trans hread.moves, fun _ _ ↦ by omega, fun reader _ ↦ ?_⟩
  rw [readingFrom_leftBrace h hkind]
  have hfollows := hread.follows reader
  cases result with
  | ok body => exact hfollows
  | error error => exact hfollows

/-- A walk from `s` to `t` that has read declarations inside of a block, up to its end. -/
structure BodyRead (input : Input) (s : State) (body : List Stmt) (result : List Stmt) (t : State) :
    Prop where
  moves : Moves input.stop s t
  ends : (input.token t.current).kind ≠ .rightBrace → t.current = input.stop
  follows : ∀ reader : Unfinished, reader.outer ≠ [] →
    input.readingFrom { reader with body } .between s =
      input.readingFrom { reader with body := result } .between t

/-- What a declaration adds to the statements in front of it, which stand last first. -/
theorem DeclarationRead.readingFrom_eq {result : Option Stmt} (h : input.Passes 0 s t)
    (hread : input.DeclarationRead t result u) {body : List Stmt}
    (hstarts : input.Starts { reader with body } s) :
    input.readingFrom { reader with body } .between s =
      input.readingFrom { reader with body := result.toList ++ body } .between u := by
  rw [h.readingFrom_eq, hread.follows _ ((h.starts_iff _).mpr hstarts)]
  cases result <;> rfl

theorem BodyRead.behind {declared : Option Stmt} {body rest : List Stmt} (h : input.Passes 0 s t)
    (hlt : s.current < input.stop) (hkind : (input.token s.current).kind ≠ .rightBrace)
    (hread : input.DeclarationRead t declared u)
    (hrest : input.BodyRead u (declared.toList ++ body) rest v) :
    input.BodyRead s body rest v := by
  refine ⟨(h.toMoves.trans hread.moves).trans hrest.moves, hrest.ends, fun reader houter ↦ ?_⟩
  rw [hread.readingFrom_eq h ⟨hlt, fun hbrace ↦ absurd hbrace hkind⟩]
  exact hrest.follows reader houter

/-- The brace closes the block, or the end of input stands in its place. -/
theorem BodyRead.closed {body : List Stmt} (hread : input.BodyRead s [] body t) :
    Ends (do
      let closing ← (input.tokens.expect .rightBrace .unclosedBlock).run
      return closing.map fun _ ↦ body.reverse : Walk (Except SyntaxError (List Stmt))) t
      (input.BlockRead s) := by
  have hfollows (reader : Unfinished) := hread.follows reader.openBlock (List.cons_ne_nil _ _)
  by_cases hkind : (input.token t.current).kind = .rightBrace
  · refine (expect_ends_of_eq hread.moves.le_stop (by simp) hkind _).bind ?_
    rintro _ u ⟨rfl, hclose⟩
    have hle := hread.moves.le
    have hnext := hclose.current_eq
    refine .pure ⟨hread.moves.trans hclose.toMoves, fun _ _ ↦ by omega, fun reader ↦ ?_⟩
    exact (hfollows reader).trans (readingFrom_rightBrace hclose hkind reader body)
  · refine (expect_ends_of_ne hread.moves.le_stop (by simp) hkind _).bind ?_
    rintro _ u ⟨rfl, hlast⟩
    have hstop := hread.ends hkind
    have hcurrent := hlast.current_eq
    refine .pure ⟨hread.moves.trans hlast.toMoves, by simp [Except.map], fun reader ↦ ⟨?_, ?_⟩⟩
    · exact congrArg input.token hcurrent.symm
    · refine (hfollows reader).trans ?_
      rw [readingFrom, reading_of_le (Nat.le_of_eq hstop.symm), reading_of_le (by omega),
        Unfinished.broken_finish rfl, hlast.errors_eq, token_of_le (Nat.le_of_eq hstop.symm)]
      simp [Unfinished.finish, Unfinished.standing, Unfinished.openBlock, List.getLast?_cons]

-- At one token a block calls its body, the body a declaration and that a statement: the ranks fall
-- in this order. A statement calls a block only behind the opening brace.
mutual

theorem declaration_ends {s : State} (hs : s.current ≤ input.stop) :
    Ends input.tokens.declaration s (input.DeclarationRead s) := by
  rw [Tokens.declaration]
  refine (?_ : Ends _ s (input.StmtRead .between s)).bind ?_
  · by_cases hkind : (input.token s.current).kind = .keyword .varWord
    · refine (accept_ends_of_mem hs (by simp) (by simpa using hkind)).bind ?_
      rintro _ t ⟨rfl, hpasses⟩
      refine (variableDeclaration_ends hpasses.le_stop).mono fun result u hread ↦ ?_
      refine hread.of_moves hpasses.toMoves fun reader _ ↦ ?_
      exact readingFrom_variable hpasses hkind reader
    · refine (accept_ends_of_not_mem hs (by simp) (by simpa using hkind)).bind ?_
      rintro _ t ⟨rfl, hpasses⟩
      have hcurrent := hpasses.current_same
      exact (statement_ends hpasses.le_stop (by rwa [hcurrent])).mono fun result u hread ↦
        hread.of_passes hpasses
  · intro result t hread
    cases result with
    | ok stmt => exact .pure hread.kept
    | error error => exact hread.dropped
termination_by 4 * (input.stop - s.current) + 3

theorem statement_ends {s : State} (hs : s.current ≤ input.stop)
    (hvar : (input.token s.current).kind ≠ .keyword .varWord) :
    Ends input.tokens.statement s (input.StmtRead .between s) := by
  rw [Tokens.statement]
  by_cases hprint : (input.token s.current).kind = .keyword .printWord
  · refine (accept_ends_of_mem hs (by simp) (by simpa using hprint)).bind ?_
    rintro _ t ⟨rfl, hpasses⟩
    refine (previous_ends hpasses.le_stop).bind ?_
    rintro _ u ⟨rfl, hlook⟩
    refine (ended_ends hlook.le_stop _).mono fun result v hread ↦ ?_
    refine hread.of_moves (hpasses.trans hlook).toMoves fun reader _ ↦ ?_
    rw [hpasses.token_previous]
    exact readingFrom_print (hpasses.trans hlook) hprint reader
  refine (accept_ends_of_not_mem hs (by simp) (by simpa using hprint)).bind ?_
  rintro _ t ⟨rfl, hpasses⟩
  have hcurrent := hpasses.current_same
  by_cases hbrace : (input.token s.current).kind = .leftBrace
  · refine (accept_ends_of_mem hpasses.le_stop (by simp) (by simpa [hcurrent] using hbrace)).bind ?_
    rintro _ u ⟨rfl, hopen⟩
    have hnext := hopen.current_eq
    have hstop := hopen.le_stop
    refine (block_ends hstop).bind fun result v hread ↦ .pure ?_
    exact hread.statement (hpasses.trans hopen) hbrace
  have hother : (input.token t.current).kind ≠ .leftBrace := hcurrent ▸ hbrace
  refine (accept_ends_of_not_mem hpasses.le_stop (by simp) (by simpa using hother)).bind ?_
  rintro _ u ⟨rfl, hlook⟩
  refine (ended_ends hlook.le_stop _).mono fun result v hread ↦ ?_
  refine hread.of_moves (hpasses.trans hlook).toMoves fun reader hstarts ↦ ?_
  rw [(hstarts rfl).readingFrom_expression hvar hprint hbrace,
    (hpasses.trans hlook).readingFrom_eq]
termination_by 4 * (input.stop - s.current) + 2

theorem block_ends {s : State} (hs : s.current ≤ input.stop) :
    Ends input.tokens.block s (input.BlockRead s) := by
  rw [Tokens.block]
  exact (blockBody_ends hs []).bind fun body t hread ↦ hread.closed
termination_by 4 * (input.stop - s.current) + 5

theorem blockBody_ends {s : State} (hs : s.current ≤ input.stop) (body : List Stmt) :
    Ends (input.tokens.blockBody body) s (input.BodyRead s body) := by
  rw [Tokens.blockBody]
  refine (check_ends hs (by simp)).bind ?_
  rintro found t ⟨hfound, hpasses⟩
  have hcurrent := hpasses.current_same
  split
  next hbrace =>
    have hkind := hfound.mp hbrace
    rw [← hcurrent] at hkind
    refine .pure ⟨hpasses.toMoves, fun hne ↦ absurd hkind hne, fun reader _ ↦ ?_⟩
    exact hpasses.readingFrom_eq _ _
  next hbrace =>
    have hkind := mt hfound.mpr hbrace
    refine (atEnd_ends hpasses.le_stop).bind ?_
    rintro found u ⟨hfound, hlook⟩
    have hboth := hpasses.trans hlook
    split
    next hend =>
      have hstop := hfound.mp hend
      refine .pure ⟨hboth.toMoves, fun _ ↦ hlook.current_eq.trans hstop, fun reader _ ↦ ?_⟩
      exact hboth.readingFrom_eq _ _
    next hend =>
      have hsame : u.current = s.current := hboth.current_eq
      have hlt : s.current < input.stop :=
        Nat.lt_of_le_of_ne hs (hcurrent ▸ mt hfound.mpr hend)
      refine (declaration_ends hboth.le_stop).bind fun result v hread ↦ ?_
      have hadvances := hread.advances (hsame ▸ hlt)
      have hstop := hread.moves.le_stop
      cases result with
      | some stmt =>
          exact (blockBody_ends hstop (stmt :: body)).mono fun rest w hrest ↦
            hrest.behind hboth hlt hkind hread
      | none =>
          exact (blockBody_ends hstop body).mono fun rest w hrest ↦
            hrest.behind hboth hlt hkind hread
termination_by 4 * (input.stop - s.current) + 4

end

/-! ## Programs -/

/-- A walk from `s` to `t` that has read declarations up to the end of input. -/
structure ProgramRead (input : Input) (s : State) (body : List Stmt) (result : List Stmt)
    (t : State) : Prop where
  moves : Moves input.stop s t
  recorded : ⟨s.current, s.current⟩ ∈ t.accesses
  stops : t.current = input.stop
  follows : input.readingFrom { Unfinished.start with body } .between s =
    { program := result.reverse, errors := t.errors.reverse }

theorem ProgramRead.behind {declared : Option Stmt} {body rest : List Stmt}
    (h : input.Passes 0 s t) (hrecorded : ⟨s.current, s.current⟩ ∈ t.accesses)
    (hlt : s.current < input.stop) (hread : input.DeclarationRead t declared u)
    (hrest : input.ProgramRead u (declared.toList ++ body) rest v) :
    input.ProgramRead s body rest v := by
  refine ⟨(h.toMoves.trans hread.moves).trans hrest.moves, ?_, hrest.stops, ?_⟩
  · exact hrest.moves.kept (hread.moves.kept hrecorded)
  · have hfirst : input.Starts { Unfinished.start with body } s := ⟨hlt, fun _ ↦ rfl⟩
    exact (hread.readingFrom_eq h hfirst).trans hrest.follows

/-- The loop over all declarations ends at the end of input. -/
theorem declarations_ends {s : State} (hs : s.current ≤ input.stop) (body : List Stmt) :
    Ends (input.tokens.declarations body) s (input.ProgramRead s body) := by
  rw [Tokens.declarations]
  refine ((atEnd_ends hs).and (atEnd_recorded hs)).bind ?_
  rintro found t ⟨⟨hfound, hpasses⟩, hrecorded⟩
  have hcurrent := hpasses.current_same
  split
  next hend =>
    have hstop := hcurrent.trans (hfound.mp hend)
    refine .pure ⟨hpasses.toMoves, hrecorded, hstop, ?_⟩
    rw [hpasses.readingFrom_eq, readingFrom, reading_of_le (Nat.le_of_eq hstop.symm)]
    simp [Unfinished.finish, Unfinished.standing, Unfinished.start]
  next hend =>
    have hlt := Nat.lt_of_le_of_ne hs (mt hfound.mpr hend)
    refine (declaration_ends hpasses.le_stop).bind fun declared u hread ↦ ?_
    have hadvances := hread.advances (hcurrent ▸ hlt)
    have hstop := hread.moves.le_stop
    cases declared with
    | some stmt =>
        exact (declarations_ends hstop (stmt :: body)).mono fun rest v hrest ↦
          hrest.behind hpasses hrecorded hlt hread
    | none =>
        exact (declarations_ends hstop body).mono fun rest v hrest ↦
          hrest.behind hpasses hrecorded hlt hread
termination_by input.stop - s.current

end Lox.Descent.Input
