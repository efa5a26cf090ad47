import Lox.Execution.Meaning
import Lox.Proofs.Session.Joined

/-!
# Runtime errors of programs

A program that is read from a source fails only at tokens of that source: at a name that is not
bound, or at an operator whose operands are of the wrong kind. The other faults belong to trees
that no source has, or to a sink that refuses lines.
-/

namespace Lox

/-- The binary operators that take numbers only. -/
def Kind.numeric : List Kind :=
  [.minus, .star, .slash, .greater, .greaterEqual, .less, .lessEqual]

theorem Kind.mem_numeric {kind : Kind} (h : kind.precedence ≠ 0) (hequal : kind ≠ .equalEqual)
    (hunequal : kind ≠ .bangEqual) (hplus : kind ≠ .plus) : kind ∈ numeric := by
  cases kind <;> simp_all [precedence, numeric]

/-- The faults that a token of a source can have, by its kind. -/
inductive RuntimeFault.ArisesAt (token : Token) : RuntimeFault → Prop
  | undefined (h : token.kind = .identifier) : ArisesAt token (.undefined token.lexeme)
  | operandNotNumber (h : token.kind = .minus) : ArisesAt token .operandNotNumber
  | operandsNotAddable (h : token.kind = .plus) : ArisesAt token .operandsNotAddable
  | operandsNotNumbers (h : token.kind ∈ Kind.numeric) : ArisesAt token .operandsNotNumbers

namespace RuntimeFault.ArisesAt

variable {token : Token} {fault : RuntimeFault}

theorem kind_mem (h : fault.ArisesAt token) :
    token.kind ∈ .identifier :: .plus :: Kind.numeric := by
  cases h with
  | undefined hkind => simp [hkind]
  | operandNotNumber hkind | operandsNotAddable hkind => simp [hkind, Kind.numeric]
  | operandsNotNumbers hkind => exact List.mem_cons_of_mem _ (List.mem_cons_of_mem _ hkind)

theorem take_message (h : fault.ArisesAt token) :
    fault.message.toList.take 3 ∈ [['U', 'n', 'd'], ['O', 'p', 'e']] := by
  cases h with
  | undefined =>
      -- The name can be any text, so only the fixed text in front of it is computed.
      have hstart : "Undefined variable '".toList =
          'U' :: 'n' :: 'd' :: "efined variable '".toList := by
        decide +kernel
      have hmessage : (RuntimeFault.undefined token.lexeme).message =
          "Undefined variable '" ++ (token.lexeme ++ "'.") := String.append_assoc
      rw [hmessage, String.toList_append, hstart]
      exact List.mem_cons_self
  | operandNotNumber | operandsNotAddable | operandsNotNumbers => decide +kernel

end RuntimeFault.ArisesAt

/-- An error that stands at one of the tokens, with a fault that fits that token. -/
def RuntimeError.PointsInto (tokens : List Token) (error : RuntimeError) : Prop :=
  error.token ∈ tokens ∧ error.fault.ArisesAt error.token

theorem RuntimeError.PointsInto.mono {front rest : List Token} {error : RuntimeError}
    (h : error.PointsInto front) (hsubset : front ⊆ rest) : error.PointsInto rest :=
  ⟨hsubset h.1, h.2⟩

/-! ## Operators and names -/

namespace Value

variable {op : Token} {error : RuntimeError}

theorem applyUnary_pointsInto {operand : Value} (hop : op.kind = .bang ∨ op.kind = .minus)
    (h : operand.applyUnary op = .error error) : error.PointsInto [op] := by
  unfold applyUnary at h
  split at h
  · cases h
  · cases h
  next hminus _ =>
    cases h
    exact ⟨List.mem_singleton_self op, .operandNotNumber hminus⟩
  next hnotBang hnotMinus _ => exact (hop.elim hnotBang hnotMinus).elim

theorem applyNumeric_ne_error (h : op.kind ∈ Kind.numeric) (x y : Float) :
    applyNumeric op x y ≠ .error error := by
  simp only [Kind.numeric, List.mem_cons, List.not_mem_nil, or_false] at h
  rcases h with h | h | h | h | h | h | h <;> simp [applyNumeric, h]

theorem applyBinary_pointsInto {left right : Value} (hop : op.kind.precedence ≠ 0)
    (h : left.applyBinary op right = .error error) : error.PointsInto [op] := by
  unfold applyBinary at h
  split at h
  · cases h
  · cases h
  · cases h
  · cases h
  next hplus _ _ =>
    cases h
    exact ⟨List.mem_singleton_self op, .operandsNotAddable hplus⟩
  next hequal hunequal hplus =>
    exact absurd h (applyNumeric_ne_error (Kind.mem_numeric hop hequal hunequal hplus) _ _)
  next hequal hunequal hplus _ _ =>
    cases h
    exact ⟨List.mem_singleton_self op,
      .operandsNotNumbers (Kind.mem_numeric hop hequal hunequal hplus)⟩

end Value

namespace Scopes

variable {scopes : Scopes} {name : Token} {error : RuntimeError}

theorem load_pointsInto (hname : name.kind = .identifier) (h : scopes.load name = .error error) :
    error.PointsInto [name] := by
  rw [load] at h
  split at h <;> cases h
  exact ⟨List.mem_singleton_self name, .undefined hname⟩

theorem store_pointsInto {value : Value} (hname : name.kind = .identifier)
    (h : scopes.store name value = .error error) : error.PointsInto [name] := by
  rw [store] at h
  split at h <;> cases h
  exact ⟨List.mem_singleton_self name, .undefined hname⟩

end Scopes

/-! ## Trees of derivations -/

theorem Phrase.eval_pointsInto {n : Nat} (d : Phrase n) {scopes : Scopes} {error : RuntimeError}
    (h : (d.expr.eval scopes).2 = .error error) : error.PointsInto d.tokens := by
  induction d generalizing scopes error with
  | assignment name equals value ih =>
      rw [expr, Expr.eval] at h
      rcases hvalue : value.expr.eval scopes with ⟨next, cause | v⟩ <;> rw [hvalue] at h
      · have hcause := ih (congrArg Prod.snd hvalue)
        cases h
        exact hcause.mono fun _ hmem ↦ List.mem_cons_of_mem _ (List.mem_cons_of_mem _ hmem)
      · dsimp only at h
        split at h
        · cases h
        next cause hstore =>
          cases h
          have hname := Scopes.store_pointsInto name.2 hstore
          exact hname.mono (List.cons_subset_cons _ (List.nil_subset _))
  | chain left op right ihl ihr =>
      have hop : op.1.kind.precedence ≠ 0 := by
        rw [precedence_of_mem op]
        exact (Kind.mem_operatorsAt_iff.mp op.2).1
      rw [expr, Expr.eval] at h
      rcases hleft : left.expr.eval scopes with ⟨middle, cause | a⟩ <;> rw [hleft] at h
      · have hcause := ihl (congrArg Prod.snd hleft)
        cases h
        exact hcause.mono (List.subset_append_left _ _)
      · dsimp only at h
        rcases hright : right.expr.eval middle with ⟨last, cause | b⟩ <;> rw [hright] at h
        · have hcause := ihr (congrArg Prod.snd hright)
          cases h
          exact hcause.mono fun _ hmem ↦ List.mem_append_right _ (List.mem_cons_of_mem _ hmem)
        · have happly := Value.applyBinary_pointsInto hop h
          exact happly.mono fun token hmem ↦ by simp [tokens, List.mem_singleton.mp hmem]
  | unary op operand ih =>
      rw [expr, Expr.eval] at h
      rcases hoperand : operand.expr.eval scopes with ⟨next, cause | v⟩ <;> rw [hoperand] at h
      · have hcause := ih (congrArg Prod.snd hoperand)
        cases h
        exact hcause.mono (List.subset_cons_self _ _)
      · have happly := Value.applyUnary_pointsInto op.2 h
        exact happly.mono (List.cons_subset_cons _ (List.nil_subset _))
  | group opening inner closing ih =>
      have hinner := ih h
      exact hinner.mono fun _ hmem ↦ List.mem_cons_of_mem _ (List.mem_append_left _ hmem)
  | atom token hdenotes =>
      cases hdenotes with
      | name hkind => exact Scopes.load_pointsInto hkind h
      | _ => cases h
  | tighter phrase ih => exact ih h

/-- Whether a sink takes all lines. -/
def Sink.isBuffer : Sink → Bool
  | lines _ => true
  | broken _ | closing .. => false

theorem Sink.exists_write_eq {sink : Sink} (h : sink.isBuffer) (line : String) :
    ∃ next : Sink, sink.write line = .ok next ∧ next.isBuffer := by
  cases sink with
  | lines reversed => exact ⟨lines (line :: reversed), rfl, rfl⟩
  | broken | closing => cases h

/-- The sink still takes all lines, and an error points into the tokens. -/
structure Session.EndsSoundly (tokens : List Token) (last : Session × Option RuntimeError) :
    Prop where
  isBuffer : last.1.sink.isBuffer
  pointsInto : ∀ error, last.2 = some error → error.PointsInto tokens

namespace Session.EndsSoundly

variable {session : Session} {tokens : List Token} {last : Session × Option RuntimeError}

theorem of_none (h : session.sink.isBuffer) : EndsSoundly tokens (session, none) :=
  ⟨h, fun _ herror ↦ nomatch herror⟩

theorem of_some {error : RuntimeError} (h : session.sink.isBuffer)
    (herror : error.PointsInto tokens) : EndsSoundly tokens (session, some error) := by
  refine ⟨h, ?_⟩
  rintro cause ⟨⟩
  exact herror

theorem mono (h : EndsSoundly tokens last) {rest : List Token} (hsubset : tokens ⊆ rest) :
    EndsSoundly rest last :=
  ⟨h.isBuffer, fun error herror ↦ (h.pointsInto error herror).mono hsubset⟩

end Session.EndsSoundly

namespace Declaration

open Session (EndsSoundly)

mutual

theorem exec_endsSoundly (d : Declaration) {session : Session} (hsink : session.sink.isBuffer) :
    EndsSoundly d.tokens (d.stmt.exec session) := by
  match d with
  | .bare word name semicolon =>
      rw [stmt, Stmt.exec]
      exact .of_none hsink
  | .initialized word name equals initial semicolon =>
      rw [stmt, Stmt.exec]
      rcases hvalue : initial.expr.eval session.scopes with ⟨next, cause | value⟩
      · have hcause := initial.eval_pointsInto (congrArg Prod.snd hvalue)
        exact .of_some hsink (hcause.mono fun _ hmem ↦ by simp [tokens, hmem])
      · exact .of_none hsink
  | .print word value semicolon =>
      rw [stmt, Stmt.exec]
      rcases hvalue : value.expr.eval session.scopes with ⟨next, cause | v⟩
      · have hcause := value.eval_pointsInto (congrArg Prod.snd hvalue)
        exact .of_some hsink (hcause.mono fun _ hmem ↦ by simp [tokens, hmem])
      · -- The line is taken, so only the operand could have failed.
        obtain ⟨sink, hwrite, hnext⟩ := Sink.exists_write_eq hsink v.text
        dsimp only
        rw [hwrite]
        exact .of_none hnext
  | .block opening body closing =>
      have henter : session.enter.sink.isBuffer := hsink
      have hbody := execAll_endsSoundly body henter
      rw [stmt, Stmt.exec]
      rcases hlast : Stmt.execAll session.enter (stmtsOfAll body) with ⟨last, failed⟩
      rw [hlast] at hbody
      have hblock : EndsSoundly (tokensOfAll body) (last.leave, failed) :=
        ⟨hbody.isBuffer, hbody.pointsInto⟩
      exact hblock.mono fun _ hmem ↦ by simp [tokens, hmem]
  | .expression value semicolon =>
      rw [stmt, Stmt.exec]
      rcases hvalue : value.expr.eval session.scopes with ⟨next, cause | v⟩
      · have hcause := value.eval_pointsInto (congrArg Prod.snd hvalue)
        exact .of_some hsink (hcause.mono (List.subset_append_left _ _))
      · exact .of_none hsink

theorem execAll_endsSoundly (p : List Declaration) {session : Session}
    (hsink : session.sink.isBuffer) :
    EndsSoundly (tokensOfAll p) (Stmt.execAll session (stmtsOfAll p)) := by
  match p with
  | [] =>
      rw [stmtsOfAll, Stmt.execAll]
      exact .of_none hsink
  | d :: rest =>
      have hfirst := exec_endsSoundly d hsink
      rw [stmtsOfAll, Stmt.execAll]
      rcases hmiddle : d.stmt.exec session with ⟨middle, _ | cause⟩ <;> rw [hmiddle] at hfirst
      · have hrest := execAll_endsSoundly rest hfirst.isBuffer
        exact hrest.mono (List.subset_append_right _ _)
      · exact hfirst.mono (List.subset_append_left _ _)

end

end Declaration

/-! ## Runs -/

theorem programOf_ne_runtime (source : String) (error : RuntimeError) :
    programOf source ≠ .error (.runtime error) := by
  rw [programOf]
  dsimp only
  split
  · split <;> simp
  · simp

namespace Session

theorem run_pointsInto {session : Session} {source : String} {error : RuntimeError}
    (hsink : session.sink.isBuffer) (h : (session.run source).2 = some (.runtime error)) :
    error.PointsInto (wordsOf source) := by
  cases hprogram : programOf source with
  | error failure =>
      rw [run, hprogram] at h
      cases h
      exact absurd hprogram (programOf_ne_runtime source error)
  | ok program =>
      obtain ⟨-, p, htokens, rfl⟩ := programOf_eq_ok_iff_derivation.mp hprogram
      rw [run_of_ok hprogram] at h
      obtain ⟨cause, hcause, heq⟩ := Option.map_eq_some_iff.mp h
      cases heq
      rw [← htokens]
      exact (Declaration.execAll_endsSoundly p hsink).pointsInto error hcause

/-- Where the lines of a program are kept, a runtime error stands at a token of the source, and
its message is one of those documented for that kind of token. -/
theorem run_error_documented {session : Session} {source : String} {error : RuntimeError}
    (hsink : session.sink.isBuffer) (h : (session.run source).2 = some (.runtime error)) :
    let token := error.token
    let message := error.fault.message
    token ∈ (Scan.ofSource source).tokens ∧
      (token.kind = .identifier ∧ message = "Undefined variable '" ++ token.lexeme ++ "'." ∨
        token.kind = .minus ∧
          (message = "Operand must be a number." ∨ message = "Operands must be a numbers.") ∨
        token.kind = .plus ∧ message = "Operands must be two numbers or two strings." ∨
        token.kind ∈ [.star, .slash, .greater, .greaterEqual, .less, .lessEqual] ∧
          message = "Operands must be a numbers.") ∧
      (∀ start ∈ ["Unknown unary operator", "Unknown binary operator", "Failed to write output"],
        ¬ start.toList <+: message.toList) ∧
      token.kind ∉ [.bang, .equalEqual, .bangEqual, .equal, .string, .number] ∧
      ∀ word, token.kind ≠ .keyword word := by
  obtain ⟨token, fault⟩ := error
  obtain ⟨hmem, harises⟩ := run_pointsInto hsink h
  dsimp only at hmem harises ⊢
  refine ⟨?_, ?_, ?_, ?_, ?_⟩
  · rw [Scan.ofSource, Scan.tokens_ofText]
    exact List.mem_append_left _ hmem
  · cases harises with
    | undefined hkind => exact .inl ⟨hkind, rfl⟩
    | operandNotNumber hkind => exact .inr (.inl ⟨hkind, .inl rfl⟩)
    | operandsNotAddable hkind => exact .inr (.inr (.inl ⟨hkind, rfl⟩))
    | operandsNotNumbers hkind =>
        rcases List.mem_cons.mp hkind with hminus | hother
        · exact .inr (.inl ⟨hminus, .inr rfl⟩)
        · exact .inr (.inr (.inr ⟨hother, rfl⟩))
  · intro start hstart hprefix
    have hstarts : ∀ start ∈ ["Unknown unary operator", "Unknown binary operator",
        "Failed to write output"], 3 ≤ start.toList.length ∧
          start.toList.take 3 ∉ [['U', 'n', 'd'], ['O', 'p', 'e']] := by
      decide +kernel
    obtain ⟨rest, hrest⟩ := hprefix
    have htake := harises.take_message
    rw [← hrest, List.take_append_of_le_length (hstarts start hstart).1] at htake
    exact (hstarts start hstart).2 htake
  · have hkinds : ∀ kind ∈ .identifier :: .plus :: Kind.numeric,
        kind ∉ [.bang, .equalEqual, .bangEqual, .equal, .string, .number] := by
      decide
    exact hkinds token.kind harises.kind_mem
  · intro word hword
    have hkind := harises.kind_mem
    rw [hword] at hkind
    simp [Kind.numeric] at hkind

/-- A minus in front of a string, behind a line break. -/
theorem run_error_documented_minus :
    fresh.sink.isBuffer ∧
      (fresh.run "print nil;\n-\"a\";").2.map Failure.text =
        some "[line 2] Error: Operand must be a number." ∧
      ∃ error, (fresh.run "print nil;\n-\"a\";").2 = some (.runtime error) ∧
        error.token ∈ (Scan.ofSource "print nil;\n-\"a\";").tokens := by
  refine ⟨rfl, by decide +kernel, ?_⟩
  have hstage : (fresh.run "print nil;\n-\"a\";").2.map Failure.stage = some .runtime := by
    decide +kernel
  cases hrun : (fresh.run "print nil;\n-\"a\";").2 with
  | none =>
      rw [hrun] at hstage
      cases hstage
  | some failure =>
      rw [hrun] at hstage
      cases failure with
      | scan | parse => cases hstage
      | runtime error => exact ⟨error, rfl, (run_error_documented rfl hrun).1⟩

end Session

end Lox
