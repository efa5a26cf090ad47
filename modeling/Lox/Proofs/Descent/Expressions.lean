import Lox.Proofs.Descent.Rules

/-!
# Expressions read by descent

Each walk of an expression comes to an end, and a reader that takes one token after the other does
the same: where the walk has stopped it holds what the walk has read, or has refused the token at
which the walk broke off.
-/

namespace Lox

open PartialStmt

/-- The reader with the same blocks, elsewhere and with other errors. -/
def Unfinished.standing (s : Unfinished) (position : Position) (errors : List SyntaxError) :
    Unfinished :=
  { s with position, errors }

theorem Unfinished.readWithin_standing (s : Unfinished) (a b : Position)
    (errors : List SyntaxError) (stmt : PartialStmt) (token : Token) :
    (s.standing a errors).readWithin stmt token = (s.standing b errors).readWithin stmt token := by
  simp only [readWithin, standing]
  cases (stmt.read token).2 <;> rfl

/-- A phrase of the level can stand behind the frames. -/
def Frame.Around (level : Nat) (frames : List Frame) : Prop := level < 5 → Settled level frames

/-- A token of the kind does not go on with a phrase of the level. -/
structure Kind.EndsPhrase (level : Nat) (kind : Kind) : Prop where
  precedence : kind.precedence ≠ 0 → kind.precedence < level
  equal : level = 0 → kind ≠ .equal

theorem Kind.EndsPhrase.precedence_eq_zero {kind : Kind} (h : kind.EndsPhrase 0) :
    kind.precedence = 0 :=
  by_contra fun hne ↦ absurd (h.precedence hne) (Nat.not_lt_zero _)

theorem Kind.EndsPhrase.of_not_equal {kind : Kind} (h : kind.EndsPhrase 1) (hne : kind ≠ .equal) :
    kind.EndsPhrase 0 :=
  ⟨fun hzero ↦ absurd (Nat.lt_one_iff.mp (h.precedence hzero)) hzero, fun _ ↦ hne⟩

theorem Kind.EndsPhrase.of_not_mem {kind : Kind} {level : Nat} (hpos : 0 < level)
    (h : kind.EndsPhrase (level + 1)) (hmem : kind ∉ operatorsAt level) :
    kind.EndsPhrase level := by
  refine ⟨fun hzero ↦ ?_, fun hlevel ↦ absurd hlevel (Nat.ne_of_gt hpos)⟩
  refine Nat.lt_of_le_of_ne (Nat.le_of_lt_succ (h.precedence hzero)) fun heq ↦ hmem ?_
  exact mem_operatorsAt_iff.mpr ⟨Nat.ne_of_gt hpos, heq⟩

theorem Kind.eof_not_mem_operatorsAt (level : Nat) : .eof ∉ operatorsAt level := by
  rw [mem_operatorsAt_iff]
  rintro ⟨hne, hlevel⟩
  exact hne hlevel.symm

theorem Frame.ofTarget_of_not_var {target : Expr} (h : ∀ name, target ≠ .var name)
    (equals : Token) : ofTarget equals target = .misplaced equals target := by
  cases target with
  | var name => exact absurd rfl (h name)
  | literal | group | unary | binary | assign => rfl

theorem Frame.Around.applyUnary_eq {level : Nat} {frames : List Frame}
    (h : Frame.Around level frames) (hlevel : level < 5) (e : Expr) :
    Operand.applyUnary frames e = ⟨frames, e⟩ :=
  (h hlevel).applyUnary_eq e

theorem Frame.Around.mono {m n : Nat} {frames : List Frame} (h : Frame.Around m frames)
    (hmn : m ≤ n) : Frame.Around n frames :=
  fun hn ↦ (h (Nat.lt_of_le_of_lt hmn hn)).mono hmn

theorem Operand.close_eq (errors : List SyntaxError) (frames : List Frame) (e : Expr) :
    close errors frames e = ((close [] frames e).1 ++ errors, (close [] frames e).2) := by
  induction frames generalizing errors e with
  | nil => rfl
  | cons frame frames ih =>
      by_cases hgroup : frame = .group
      · rw [hgroup]
        rfl
      · rw [close_cons hgroup, close_cons hgroup, ih, ih (frame.errors ++ [])]
        simp

namespace Descent.Input

variable {input : Input} {i : Nat} {s t u v : State}

/-! ## Reading on token by token -/

/-- What comes of a reader that reads on at an index. -/
def reading (input : Input) (reader : Unfinished) (i : Nat) : Parsed :=
  ((input.body.drop i).foldl Unfinished.read reader).finish input.ending

/-- What comes of a reader that stands where the cursor does, and has the same errors. -/
def readingFrom (input : Input) (reader : Unfinished) (position : Position) (s : State) : Parsed :=
  input.reading (reader.standing position s.errors) s.current

theorem reading_of_lt (h : i < input.stop) (reader : Unfinished) :
    input.reading reader i = input.reading (reader.read (input.token i)) (i + 1) := by
  rw [reading, drop_body h]
  rfl

theorem reading_of_le (h : input.stop ≤ i) (reader : Unfinished) :
    input.reading reader i = reader.finish input.ending := by
  rw [reading, List.drop_eq_nil_of_le h]
  rfl

section

variable {stmt next other : PartialStmt}

/-- The end of input is refused inside of a statement, so it can be taken for one more token. -/
theorem readingFrom_within (reader : Unfinished) (stmt : PartialStmt) (s : State) :
    input.readingFrom reader (.within stmt) s =
      input.reading ((reader.standing (.within stmt) s.errors).readWithin stmt
        (input.token s.current)) (s.current + 1) := by
  rw [readingFrom]
  rcases Nat.lt_or_ge s.current input.stop with hlt | hge
  · rw [reading_of_lt hlt, Unfinished.read_of_within rfl]
  · obtain ⟨fault, hrefuse⟩ := stmt.read_end input.ending_kind
    rw [reading_of_le hge, reading_of_le (Nat.le_succ_of_le hge), token_of_le hge]
    simp [Unfinished.finish, Unfinished.standing, Unfinished.readWithin_eq_of_refuse hrefuse,
      input.ending_kind]

theorem readingFrom_of_more (h : input.Passes 1 s t)
    (hread : stmt.read (input.token s.current) = ([], .more next)) (reader : Unfinished) :
    input.readingFrom reader (.within stmt) s = input.readingFrom reader (.within next) t := by
  rw [readingFrom_within, Unfinished.readWithin_of_more hread, readingFrom, h.current_eq,
    h.errors_eq]
  rfl

theorem readingFrom_of_complete {result : Stmt} (h : input.Passes 1 s t)
    (hread : stmt.read (input.token s.current) = ([], .complete result)) (reader : Unfinished) :
    input.readingFrom reader (.within stmt) s =
      input.readingFrom (reader.add result) .between t := by
  rw [readingFrom_within, Unfinished.readWithin_of_complete hread, readingFrom, h.current_eq,
    h.errors_eq]
  rfl

/-- Statements that take the next token alike are read on alike. -/
theorem readingFrom_congr (hcurrent : t.current = s.current)
    (hreaction : (stmt.read (input.token s.current)).2 = (other.read (input.token s.current)).2)
    (herrors : (stmt.read (input.token s.current)).1 ++ s.errors =
      (other.read (input.token s.current)).1 ++ t.errors) (reader : Unfinished) :
    input.readingFrom reader (.within stmt) s = input.readingFrom reader (.within other) t := by
  rw [readingFrom_within, readingFrom_within, hcurrent]
  simp only [Unfinished.readWithin, Unfinished.standing, hreaction, herrors]
  cases (other.read (input.token s.current)).2 <;> rfl

end

/-! ## What a walk has done -/

section

variable {α : Type}

/-- The walk of a rule has come to `t`, and `parsed` is what comes of a reader from there on: what
is read behind the rule, or what is read behind a token at which the rule is broken off. -/
def Follows (input : Input) (parsed : Parsed) (reader : Unfinished) (next : α → State → Parsed)
    (result : Except SyntaxError α) (t : State) : Prop :=
  match result with
  | .ok a => parsed = next a t
  | .error error =>
      error.token = input.token t.current ∧
        parsed = input.reading ((reader.standing .between (error :: t.errors)).broken error.token)
          (t.current + 1)

theorem follows_of_refuse {stmt : PartialStmt} {fault : SyntaxFault} (h : input.Passes 0 s t)
    (hread : stmt.read (input.token s.current) = ([], .refuse fault)) (reader : Unfinished)
    (next : α → State → Parsed) :
    input.Follows (input.readingFrom reader (.within stmt) s) reader next
      (.error ⟨input.token s.current, fault⟩) t := by
  have hcurrent := h.current_eq
  refine ⟨congrArg input.token hcurrent.symm, ?_⟩
  rw [readingFrom_within, Unfinished.readWithin_eq_of_refuse (congrArg Prod.snd hread), hread,
    hcurrent, h.errors_eq]
  rfl

end

theorem Passes.readingFrom_eq (h : input.Passes 0 s t) (reader : Unfinished)
    (position : Position) :
    input.readingFrom reader position s = input.readingFrom reader position t := by
  rw [readingFrom, readingFrom, h.current_eq, h.errors_eq, Nat.add_zero]

/-! ## Phrases -/

variable {clause : Clause} {level inner : Nat} {frame : Frame} {frames : List Frame}
  {e operand : Expr} {result : Except SyntaxError Expr} {error : SyntaxError} {rule : Rule Expr}

/-- A walk from `s` to `t` that has read a phrase of the level, or has broken off. -/
structure PhraseRead (input : Input) (level : Nat) (s : State) (result : Except SyntaxError Expr)
    (t : State) : Prop where
  moves : Moves input.stop s t
  advances : ∀ e, result = .ok e → s.current < t.current
  follows : ∀ reader clause frames, Frame.Around level frames →
    input.Follows (input.readingFrom reader (.within (.waiting clause frames)) s) reader
      (fun e ↦ input.readingFrom reader (.within (.ready clause (.applyUnary frames e)))) result t

/-- From `s` to `t` a phrase of the level has been read up to its last operand, which the frame
waits for. -/
structure Opens (input : Input) (level : Nat) (s : State) (frame : Frame) (inner : Nat)
    (t : State) : Prop where
  moves : Moves input.stop s t
  around : ∀ frames, Frame.Around inner (frame :: frames)
  reading : ∀ reader clause frames, Frame.Around level frames →
    input.readingFrom reader (.within (.waiting clause frames)) s =
      input.readingFrom reader (.within (.waiting clause (frame :: frames))) t

/-- The walk comes to an end when it is begun at `t`, and if it does not break off all of a phrase
has been read since `s`. -/
def Reads (input : Input) (level : Nat) (s : State) (rule : Rule Expr) (t : State) : Prop :=
  Ends rule.run t fun result u ↦ input.PhraseRead level s result u ∧
    ∀ e, result = .ok e → (input.token u.current).kind.EndsPhrase level

/-- An error in the operand breaks the phrase off. -/
theorem Opens.broken (h : input.Opens level s frame inner t)
    (hread : input.PhraseRead inner t (.error error) u) :
    input.PhraseRead level s (.error error) u := by
  refine ⟨h.moves.trans hread.moves, by simp, ?_⟩
  intro reader clause frames hframes
  obtain ⟨htoken, hreading⟩ := hread.follows reader clause (frame :: frames) (h.around frames)
  exact ⟨htoken, (h.reading reader clause frames hframes).trans hreading⟩

/-- Behind the operand the phrase is read up to where the reader holds all of it. -/
theorem Opens.filled (h : input.Opens level s frame inner t)
    (hread : input.PhraseRead inner t (.ok operand) u) (hmoves : Moves input.stop u v)
    (hclose : ∀ reader clause frames, Frame.Around level frames →
      input.readingFrom reader (.within (.ready clause (.applyUnary (frame :: frames) operand))) u =
        input.readingFrom reader (.within (.ready clause (.applyUnary frames e))) v) :
    input.PhraseRead level s (.ok e) v := by
  refine ⟨(h.moves.trans hread.moves).trans hmoves, ?_, ?_⟩
  · intro _ _
    have hfirst := h.moves.le
    have hoperand := hread.advances operand rfl
    have hlast := hmoves.le
    omega
  · intro reader clause frames hframes
    have hoperand := hread.follows reader clause (frame :: frames) (h.around frames)
    calc
      _ = _ := h.reading reader clause frames hframes
      _ = _ := hoperand
      _ = _ := hclose reader clause frames hframes

/-! ## Operands of their own -/

/-- A token that is an operand by itself. -/
theorem phraseRead_of_denotes (h : input.Passes 1 s t)
    (hdenotes : (input.token s.current).Denotes e) : input.PhraseRead level s (.ok e) t := by
  refine ⟨h.toMoves, ?_, ?_⟩
  · intro _ _
    have hcurrent := h.current_eq
    omega
  · intro reader clause frames _
    exact readingFrom_of_more h (read_waiting_of_denotes hdenotes clause frames) reader

theorem phraseRead_of_missingOperand (h : input.Passes 0 s t)
    (hparen : (input.token s.current).kind ≠ .leftParen)
    (hunary : (input.token s.current).kind ∉ [.bang, .minus])
    (hoperand : (input.token s.current).operand? = none) :
    input.PhraseRead level s (.error ⟨input.token s.current, .missingOperand⟩) t := by
  refine ⟨h.toMoves, by simp, ?_⟩
  intro reader clause frames _
  have hread : (waiting clause frames).read (input.token s.current) =
      ([], .refuse .missingOperand) := by
    rw [PartialStmt.read, readOperand]
    split
    next hkind => exact absurd hkind hparen
    next hkind => simp [hkind] at hunary
    next hkind => simp [hkind] at hunary
    · rw [hoperand]
  exact follows_of_refuse h hread reader _

theorem opens_unary (h : input.Passes 1 s t)
    (hkind : (input.token s.current).kind ∈ [.bang, .minus]) :
    input.Opens 5 s (.unary (input.token s.current)) 5 t := by
  refine ⟨h.toMoves, fun _ hlevel ↦ absurd hlevel (Nat.lt_irrefl 5), ?_⟩
  intro reader clause frames _
  exact readingFrom_of_more h (read_waiting_of_unary (by simpa using hkind) clause frames) reader

theorem opens_group (h : input.Passes 1 s t)
    (hkind : (input.token s.current).kind = .leftParen) : input.Opens level s .group 0 t := by
  refine ⟨h.toMoves, fun _ _ ↦ trivial, ?_⟩
  intro reader clause frames _
  exact readingFrom_of_more h (read_waiting_of_leftParen hkind clause frames) reader

theorem opens_binary {left : Expr} (hread : input.PhraseRead level s (.ok left) t)
    (h : input.Passes 1 t u) (hkind : (input.token t.current).kind ∈ Kind.operatorsAt level) :
    input.Opens level s (.binary (input.token t.current) left) (level + 1) u := by
  obtain ⟨-, hprecedence⟩ := Kind.mem_operatorsAt_iff.mp hkind
  have hlevel : level < 5 := hprecedence ▸ (input.token t.current).kind.precedence_lt
  refine ⟨hread.moves.trans h.toMoves, ?_, ?_⟩
  · intro frames _
    simp [Frame.Settled, hprecedence]
  · intro reader clause frames hframes
    have hop := read_ready_of_binary hkind clause ⟨frames, left⟩
    simp only [(hframes hlevel).applyBinary_eq] at hop
    have hleft := hread.follows reader clause frames hframes
    simp only [Follows, hframes.applyUnary_eq hlevel] at hleft
    exact hleft.trans (readingFrom_of_more h hop reader)

theorem opens_assignment {target : Expr} (hread : input.PhraseRead 1 s (.ok target) t)
    (h : input.Passes 1 t u) (hkind : (input.token t.current).kind = .equal) :
    input.Opens 0 s (.ofTarget (input.token t.current) target) 0 u := by
  refine ⟨hread.moves.trans h.toMoves, ?_, ?_⟩
  · intro frames _
    cases target <;> trivial
  · intro reader clause frames hframes
    have hone : Frame.Around 1 frames := hframes.mono (Nat.zero_le 1)
    have hequals := read_ready_of_equal hkind clause ⟨frames, target⟩
    simp only [(hone (by decide)).applyBinary_eq] at hequals
    have htarget := hread.follows reader clause frames hone
    simp only [Follows, hone.applyUnary_eq (by decide)] at htarget
    exact htarget.trans (readingFrom_of_more h hequals reader)

/-- A token that ends all phrases fills the innermost frame. -/
theorem readingFrom_fill {value : Expr} (hframe : frame ≠ .group)
    (hends : (input.token s.current).kind.EndsPhrase 0) (hcurrent : t.current = s.current)
    (herrors : t.errors = frame.errors ++ s.errors) (reader : Unfinished) (clause : Clause)
    (frames : List Frame) :
    input.readingFrom reader (.within (.ready clause ⟨frame :: frames, value⟩)) s =
      input.readingFrom reader (.within (.ready clause ⟨frames, frame.fill value⟩)) t := by
  have hprecedence := hends.precedence_eq_zero
  have hequal := hends.equal rfl
  have hclose := Operand.close_eq (frame.errors ++ []) frames (frame.fill value)
  rw [← Operand.close_cons hframe, List.append_nil] at hclose
  apply readingFrom_congr hcurrent
  · rw [read_ready_of_closing hprecedence hequal, read_ready_of_closing hprecedence hequal, hclose]
  · rw [read_ready_of_closing hprecedence hequal, read_ready_of_closing hprecedence hequal, hclose,
      herrors]
    exact List.append_assoc _ _ _

/-- An operator takes its right operand before any token that binds no more tightly. -/
theorem readingFrom_binary {op : Token} {left right : Expr} (hpos : 0 < level)
    (hop : op.kind.precedence = level)
    (hends : (input.token s.current).kind.EndsPhrase (level + 1)) (reader : Unfinished)
    (clause : Clause) (frames : List Frame) :
    input.readingFrom reader (.within (.ready clause ⟨.binary op left :: frames, right⟩)) s =
      input.readingFrom reader (.within (.ready clause ⟨frames, .binary op left right⟩)) s := by
  have hle : (input.token s.current).kind.precedence ≤ level := by
    by_cases hzero : (input.token s.current).kind.precedence = 0
    · exact hzero ▸ Nat.zero_le level
    · exact Nat.le_of_lt_succ (hends.precedence hzero)
  have hread : (ready clause ⟨.binary op left :: frames, right⟩).read (input.token s.current) =
      (ready clause ⟨frames, .binary op left right⟩).read (input.token s.current) := by
    have hone : 1 ≤ level := hpos
    simp [PartialStmt.read, readOperator, Operand.applyBinary, Operand.close, Frame.errors,
      Frame.fill, hop, hle, hone]
  exact readingFrom_congr rfl (congrArg Prod.snd hread) (by rw [hread]) reader

theorem PhraseRead.mono {lower : Nat} (h : input.PhraseRead level s result t)
    (hle : lower ≤ level) : input.PhraseRead lower s result t :=
  ⟨h.moves, h.advances, fun reader clause frames hframes ↦
    h.follows reader clause frames (hframes.mono hle)⟩

theorem PhraseRead.of_passes (h : input.Passes 0 s t) (hread : input.PhraseRead level t result u) :
    input.PhraseRead level s result u := by
  have hcurrent := h.current_eq
  refine ⟨h.toMoves.trans hread.moves, ?_, ?_⟩
  · intro e he
    have hadvances := hread.advances e he
    omega
  · intro reader clause frames hframes
    rw [h.readingFrom_eq]
    exact hread.follows reader clause frames hframes

theorem Reads.of_passes (h : input.Passes 0 s t) (hreads : input.Reads level t rule t) :
    input.Reads level s rule t :=
  Ends.mono hreads fun _ _ hread ↦ ⟨hread.1.of_passes h, hread.2⟩

theorem PhraseRead.behind (hread : input.PhraseRead level s (.ok e) t) (h : input.Passes 0 t u) :
    input.PhraseRead level s (.ok e) u := by
  have hcurrent := h.current_eq
  refine ⟨hread.moves.trans h.toMoves, ?_, ?_⟩
  · intro _ _
    have hadvances := hread.advances e rfl
    omega
  · intro reader clause frames hframes
    exact (hread.follows reader clause frames hframes).trans (h.readingFrom_eq _ _)

/-- The value of an assignment is complete, and so is the assignment. -/
theorem Opens.assigned {equals : Token} {target value : Expr}
    (h : input.Opens 0 s (.ofTarget equals target) 0 t)
    (hread : input.PhraseRead 0 t (.ok value) u)
    (hends : (input.token u.current).kind.EndsPhrase 0) (hmoves : Moves input.stop u v)
    (hcurrent : v.current = u.current)
    (herrors : v.errors = (Frame.ofTarget equals target).errors ++ u.errors) :
    input.PhraseRead 0 s (.ok ((Frame.ofTarget equals target).fill value)) v := by
  have hframe : Frame.ofTarget equals target ≠ .group := by
    cases target <;> simp [Frame.ofTarget]
  refine h.filled hread hmoves fun reader clause frames hframes ↦ ?_
  rw [(h.around frames).applyUnary_eq (by decide), hframes.applyUnary_eq (by decide)]
  exact readingFrom_fill hframe hends hcurrent herrors reader clause frames

theorem Opens.combined {op : Token} {left right : Expr} (hop : op.kind ∈ Kind.operatorsAt level)
    (h : input.Opens level s (.binary op left) (level + 1) t)
    (hread : input.PhraseRead (level + 1) t (.ok right) u)
    (hends : (input.token u.current).kind.EndsPhrase (level + 1)) :
    input.PhraseRead level s (.ok (.binary op left right)) u := by
  obtain ⟨hne, hprecedence⟩ := Kind.mem_operatorsAt_iff.mp hop
  have hlevel : level < 5 := hprecedence ▸ op.kind.precedence_lt
  refine h.filled hread (.refl hread.moves.le_stop) fun reader clause frames hframes ↦ ?_
  rw [hframes.applyUnary_eq hlevel]
  exact readingFrom_binary (Nat.pos_of_ne_zero hne) hprecedence hends reader clause frames

/-! ## Parentheses -/

theorem Opens.closed (h : input.Opens level s .group 0 t)
    (hread : input.PhraseRead 0 t (.ok operand) u) (hclose : input.Passes 1 u v)
    (hkind : (input.token u.current).kind = .rightParen) :
    input.PhraseRead level s (.ok (.group operand)) v := by
  refine h.filled hread hclose.toMoves fun reader clause frames _ ↦ ?_
  have hclosing : (ready clause ⟨.group :: frames, operand⟩).read (input.token u.current) =
      ([], .more (ready clause (.applyUnary frames (.group operand)))) := by
    rw [read_ready_of_closing (by simp [hkind, Kind.precedence]) (by simp [hkind])]
    simp [Operand.close, readClosing, hkind]
  exact readingFrom_of_more hclose hclosing reader

theorem Opens.unclosed (h : input.Opens level s .group 0 t)
    (hread : input.PhraseRead 0 t (.ok operand) u)
    (hends : (input.token u.current).kind.EndsPhrase 0) (hlast : input.Passes 0 u v)
    (hkind : (input.token u.current).kind ≠ .rightParen) :
    input.PhraseRead level s (.error ⟨input.token u.current, .unclosedGroup⟩) v := by
  refine ⟨(h.moves.trans hread.moves).trans hlast.toMoves, by simp, ?_⟩
  intro reader clause frames hframes
  have hrefused : (ready clause ⟨.group :: frames, operand⟩).read (input.token u.current) =
      ([], .refuse .unclosedGroup) := by
    rw [read_ready_of_closing hends.precedence_eq_zero (hends.equal rfl)]
    simp [Operand.close, readClosing, hkind]
  have hoperand := hread.follows reader clause (.group :: frames) fun _ ↦ trivial
  rw [h.reading reader clause frames hframes, hoperand]
  exact follows_of_refuse hlast hrefused reader _

/-! ## The rules -/

theorem endsPhrase_of_le (hlevel : 5 ≤ level) (kind : Kind) : kind.EndsPhrase level :=
  ⟨fun _ ↦ Nat.lt_of_lt_of_le kind.precedence_lt hlevel, by omega⟩

-- A rule calls the next one at the same token, so the number of tokens left does not fall with each
-- call. Eight times that number, with the rank of the rule added, does.
mutual

theorem assignment_reads {s : State} (hs : s.current ≤ input.stop) :
    input.Reads 0 s input.tokens.assignment s := by
  unfold Reads
  rw [Tokens.assignment]
  refine (binary_reads 1 (by decide) (by decide) hs).rule ?_ ?_
  · rintro target t ⟨hread, hends⟩
    have hadvances := hread.advances target rfl
    by_cases hkind : (input.token t.current).kind = .equal
    · refine .kept hread.moves.le_stop (by simp) (by simpa using hkind) fun u hpasses ↦ ?_
      have hopens := opens_assignment hread hpasses hkind
      have hcurrent := hpasses.current_eq
      have hstop := hpasses.le_stop
      refine (assignment_reads hstop).rule ?_ ?_
      · rintro value v ⟨hvalue, hlast⟩
        have hend := hlast value rfl
        split
        · refine .pure ⟨?_, fun _ _ ↦ hend⟩
          exact hopens.assigned hvalue hend (.refl hvalue.moves.le_stop) rfl rfl
        next hname =>
          -- The reader notes the error when it fills the frame, and so at the same place.
          refine .walk (note_ends hvalue.moves.le_stop _) ?_
          rintro _ w ⟨hsame, hnoted, hmoves⟩
          refine .pure ⟨?_, fun _ _ ↦ hsame ▸ hend⟩
          have hassigned := hopens.assigned hvalue hend hmoves hsame
          rw [Frame.ofTarget_of_not_var hname] at hassigned
          exact hassigned hnoted
      · rintro error v ⟨hvalue, -⟩
        exact ⟨hopens.broken hvalue, by simp⟩
    · refine .left hread.moves.le_stop (by simp) (by simpa using hkind) fun u hpasses ↦ .pure ?_
      refine ⟨(hread.mono (Nat.zero_le 1)).behind hpasses, fun _ _ ↦ ?_⟩
      rw [hpasses.current_eq]
      exact (hends target rfl).of_not_equal hkind
  · rintro error t ⟨hread, -⟩
    exact ⟨hread.mono (Nat.zero_le 1), by simp⟩
termination_by 8 * (input.stop - s.current) + 7

theorem binary_reads {s : State} (level : Nat) (hpos : 0 < level) (hle : level ≤ 5)
    (hs : s.current ≤ input.stop) : input.Reads level s (input.tokens.binary level) s := by
  unfold Reads
  rw [Tokens.binary]
  split
  next hlevel =>
    refine (binary_reads (level + 1) (Nat.succ_pos level) hlevel hs).rule ?_ ?_
    · rintro left t ⟨hread, hends⟩
      have hadvances := hread.advances left rfl
      have hstop := hread.moves.le_stop
      exact operators_reads level hpos hlevel (hread.mono (Nat.le_succ level)) (hends left rfl)
    · rintro error t ⟨hread, -⟩
      exact ⟨hread.mono (Nat.le_succ level), by simp⟩
  next hlevel =>
    obtain rfl : level = 5 := by omega
    exact unary_reads hs
termination_by 8 * (input.stop - s.current) + (7 - level)

theorem operators_reads {s t : State} (level : Nat) (hpos : 0 < level) (hlevel : level < 5)
    {left : Expr} (hread : input.PhraseRead level s (.ok left) t)
    (hends : (input.token t.current).kind.EndsPhrase (level + 1)) :
    input.Reads level s (input.tokens.operators level left) t := by
  unfold Reads
  rw [Tokens.operators]
  have hne := Kind.eof_not_mem_operatorsAt level
  by_cases hkind : (input.token t.current).kind ∈ Kind.operatorsAt level
  · refine .kept hread.moves.le_stop hne hkind fun u hpasses ↦ ?_
    -- What has been read since `s` is now the left side of a frame.
    have hopens := opens_binary hread hpasses hkind
    have hcurrent := hpasses.current_eq
    have hstop := hpasses.le_stop
    refine (binary_reads (level + 1) (Nat.succ_pos level) hlevel hstop).rule ?_ ?_
    · rintro right v ⟨hright, hnext⟩
      have hadvances := hright.advances right rfl
      have hlast := hright.moves.le_stop
      exact operators_reads level hpos hlevel
        (hopens.combined hkind hright (hnext right rfl)) (hnext right rfl)
    · rintro error v ⟨hright, -⟩
      exact ⟨hopens.broken hright, by simp⟩
  · refine .left hread.moves.le_stop hne hkind fun u hpasses ↦ .pure ?_
    refine ⟨hread.behind hpasses, fun _ _ ↦ ?_⟩
    rw [hpasses.current_eq]
    exact hends.of_not_mem hpos hkind
termination_by 8 * (input.stop - t.current)

theorem unary_reads {s : State} (hs : s.current ≤ input.stop) :
    input.Reads 5 s input.tokens.unary s := by
  unfold Reads
  rw [Tokens.unary]
  by_cases hkind : (input.token s.current).kind ∈ [.bang, .minus]
  · refine .kept hs (by simp) hkind fun t hpasses ↦ ?_
    have hopens := opens_unary hpasses hkind
    have hcurrent := hpasses.current_eq
    have hstop := hpasses.le_stop
    refine (unary_reads hstop).rule ?_ ?_
    · rintro operand u ⟨hread, -⟩
      refine .pure ⟨?_, fun _ _ ↦ endsPhrase_of_le (Nat.le_refl 5) _⟩
      exact hopens.filled hread (.refl hread.moves.le_stop) fun _ _ _ _ ↦ rfl
    · rintro error u ⟨hread, -⟩
      exact ⟨hopens.broken hread, by simp⟩
  · refine .left hs (by simp) hkind fun t hpasses ↦ ?_
    have hcurrent := hpasses.current_eq
    exact (primary_reads hpasses.le_stop (by simpa [hcurrent] using hkind)).of_passes hpasses
termination_by 8 * (input.stop - s.current) + 1

theorem primary_reads {s : State} (hs : s.current ≤ input.stop)
    (hunary : (input.token s.current).kind ∉ [.bang, .minus]) :
    input.Reads 5 s input.tokens.primary s := by
  unfold Reads
  rw [Tokens.primary]
  refine .walk (peek_ends hs) ?_
  rintro _ t ⟨rfl, hpasses⟩
  have hcurrent := hpasses.current_same
  split
  next hparen =>
    have hlt := lt_stop_of_kind (by simp) hparen
    refine .walk (advance_ends (by omega)) ?_
    rintro token u ⟨_, hadvance⟩
    have hopens : input.Opens 5 s .group 0 u := opens_group (hpasses.trans hadvance) hparen
    have hnext := hadvance.current_eq
    have hstop := hadvance.le_stop
    refine (assignment_reads hstop).rule ?_ ?_
    · rintro operand v ⟨hread, hends⟩
      have hend := hends operand rfl
      by_cases hclosing : (input.token v.current).kind = .rightParen
      · refine (expect_ends_of_eq hread.moves.le_stop (by simp) hclosing _).rule ?_ ?_
        · rintro _ w ⟨-, hclose⟩
          refine .pure ⟨hopens.closed hread hclose hclosing, fun _ _ ↦ ?_⟩
          exact endsPhrase_of_le (Nat.le_refl 5) _
        · rintro _ w ⟨heq, -⟩
          cases heq
      · refine (expect_ends_of_ne hread.moves.le_stop (by simp) hclosing _).rule ?_ ?_
        · rintro _ w ⟨heq, -⟩
          cases heq
        · rintro _ w ⟨heq, hlast⟩
          cases heq
          exact ⟨hopens.unclosed hread hend hlast hclosing, by simp⟩
    · rintro error v ⟨hread, -⟩
      exact ⟨hopens.broken hread, by simp⟩
  next hparen =>
    split
    next e hoperand =>
      have hdenotes := Token.operand?_eq_some_iff.mp hoperand
      have hlt : s.current < input.stop := by
        refine Nat.lt_of_not_le fun hge ↦ ?_
        simp [Token.operand?, kind_token_eq_eof_iff.mpr hge] at hoperand
      refine .walk (advance_ends (by omega)) ?_
      rintro token u ⟨_, hadvance⟩
      refine .pure ?_
      refine ⟨phraseRead_of_denotes (hpasses.trans hadvance) hdenotes, fun _ _ ↦ ?_⟩
      exact endsPhrase_of_le (Nat.le_refl 5) _
    next hoperand =>
      exact ⟨_, t, rfl, phraseRead_of_missingOperand hpasses hparen hunary hoperand, by simp⟩
termination_by 8 * (input.stop - s.current)

end

end Descent.Input

end Lox
