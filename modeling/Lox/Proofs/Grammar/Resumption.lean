import Mathlib.Order.Bounds.Basic
import Lox.Proofs.Grammar.Independence

/-!
# Where reading goes on

Behind an error that breaks a statement off, tokens are skipped up to the first place where a
statement can begin for certain. If no block is open the tokens from there on are read as they are
by themselves.
-/

namespace Lox

variable {token stop : Token} {rest : List Token} {error : SyntaxError}

/-! ## The place -/

/-- Reading can go on at the index: behind a semicolon, at a word that can only begin a statement,
or at the end of input. -/
def ResumesAt (tokens : List Token) (k : Nat) : Prop :=
  (∃ token, tokens[k - 1]? = some token ∧ token.kind = .semicolon) ∨
    (∃ token, tokens[k]? = some token ∧ token.kind.startsDeclaration) ∨
      k = tokens.findIdx Token.isEnd

/-- How many of the tokens behind a refused token are skipped. -/
def skipped (refused : Token) : List Token → Nat
  | [] => 0
  | token :: rest =>
      if refused.kind = .semicolon ∨ token.kind.startsDeclaration then 0
      else skipped token rest + 1

theorem skipped_le (refused : Token) (rest : List Token) : skipped refused rest ≤ rest.length := by
  induction rest generalizing refused with
  | nil => exact Nat.le_refl 0
  | cons token rest ih =>
      rw [skipped]
      split
      · exact Nat.zero_le _
      · exact Nat.succ_le_succ (ih token)

theorem resumesAt_succ_iff {tokens : List Token} {j : Nat} {refused : Token}
    (hrefused : tokens[j]? = some refused) (htoken : tokens[j + 1]? = some token)
    (hend : j + 1 < tokens.findIdx Token.isEnd) :
    ResumesAt tokens (j + 1) ↔ refused.kind = .semicolon ∨ token.kind.startsDeclaration := by
  simp [ResumesAt, hrefused, htoken, hend.ne]

/-- The tokens are skipped up to the first place where reading can go on. -/
theorem isLeast_skipped {tokens after : List Token} {j : Nat} {refused : Token}
    (hdrop : tokens.drop j = refused :: (rest ++ after))
    (hend : tokens.findIdx Token.isEnd = j + 1 + rest.length) :
    IsLeast {k | j < k ∧ ResumesAt tokens k} (j + 1 + skipped refused rest) := by
  induction rest generalizing j refused with
  | nil =>
      refine ⟨⟨Nat.lt_succ_self j, .inr (.inr hend.symm)⟩, ?_⟩
      rintro k ⟨hk, -⟩
      exact hk
  | cons token rest ih =>
      have hrefused : tokens[j]? = some refused := by
        rw [← Nat.add_zero j, ← List.getElem?_drop, hdrop]
        rfl
      have htoken : tokens[j + 1]? = some token := by
        rw [← List.getElem?_drop, hdrop]
        rfl
      have hbefore : j + 1 < tokens.findIdx Token.isEnd := by
        simp only [hend, List.length_cons]
        omega
      have hresumes := resumesAt_succ_iff hrefused htoken hbefore
      by_cases hresume : refused.kind = .semicolon ∨ token.kind.startsDeclaration
      · rw [skipped, if_pos hresume]
        refine ⟨⟨Nat.lt_succ_self j, hresumes.mpr hresume⟩, ?_⟩
        rintro k ⟨hk, -⟩
        exact hk
      · have hnext : tokens.drop (j + 1) = token :: (rest ++ after) := by
          rw [← List.drop_drop, hdrop]
          rfl
        obtain ⟨⟨hlater, hmem⟩, hleast⟩ := ih hnext (by rw [hend, List.length_cons]; omega)
        rw [skipped, if_neg hresume, Nat.add_comm (skipped token rest) 1, ← Nat.add_assoc]
        refine ⟨⟨Nat.lt_of_succ_lt hlater, hmem⟩, ?_⟩
        rintro k ⟨hk, hat⟩
        rcases Nat.eq_or_lt_of_le hk with rfl | hbehind
        · exact absurd (hresumes.mp hat) hresume
        · exact hleast ⟨hbehind, hat⟩

/-! ## Reading on -/

namespace Unfinished

variable {s : Unfinished}

/-- Behind a token that was refused. -/
def broken (s : Unfinished) (refused : Token) : Unfinished :=
  { s with position := if refused.kind = .semicolon then .between else .skipping }

theorem broken_read {refused : Token}
    (h : ¬(refused.kind = .semicolon ∨ token.kind.startsDeclaration)) (s : Unfinished) :
    (s.broken refused).read token = s.broken token := by
  obtain ⟨hrefused, hstarts⟩ := not_or.mp h
  by_cases hkind : token.kind = .semicolon <;>
    simp [broken, Unfinished.read, hrefused, hstarts, hkind]

theorem broken_read_of_resume {refused : Token} (hposition : s.position = .between)
    (h : refused.kind = .semicolon ∨ token.kind.startsDeclaration) :
    (s.broken refused).read token = s.read token := by
  by_cases hrefused : refused.kind = .semicolon
  · simp [broken, hrefused, ← hposition]
  · have hstarts := h.resolve_left hrefused
    have hkind : token.kind ≠ .semicolon := by
      intro hkind
      simp [hkind, Kind.startsDeclaration] at hstarts
    simp only [broken, Unfinished.read, if_neg hrefused, if_neg hkind, if_pos hstarts, hposition]
    rw [← hposition]

theorem broken_finish {refused : Token} (hposition : s.position = .between) (stop : Token) :
    (s.broken refused).finish stop = s.finish stop := by
  by_cases hkind : refused.kind = .semicolon <;>
    simp [broken, Unfinished.finish, hposition, hkind]

/-- What is skipped leaves no trace. -/
theorem broken_foldl_read {refused : Token} (hposition : s.position = .between)
    (rest : List Token) (stop : Token) :
    (rest.foldl Unfinished.read (s.broken refused)).finish stop =
      ((rest.drop (skipped refused rest)).foldl Unfinished.read s).finish stop := by
  induction rest generalizing refused with
  | nil => exact broken_finish hposition stop
  | cons token rest ih =>
      by_cases hresume : refused.kind = .semicolon ∨ token.kind.startsDeclaration
      · rw [skipped, if_pos hresume, List.drop_zero, List.foldl_cons, List.foldl_cons,
          broken_read_of_resume hposition hresume]
      · rw [skipped, if_neg hresume, List.drop_succ_cons, List.foldl_cons, broken_read hresume]
        exact ih

/-- Only a refused token makes a calm reader break a statement off. -/
theorem Calm.readWithin_eq_broken (h : s.Calm) {stmt : PartialStmt}
    (hpanic : (s.readWithin stmt token).panic? = some error) :
    ∃ errors, s.readWithin stmt token = broken { s with errors := error :: errors } token := by
  have hpanics := stmt.read_panics token
  cases hreaction : (stmt.read token).2 with
  | more next =>
      have hcalm : (s.readWithin stmt token).Calm := by
        rw [readWithin_eq_of_more hreaction]
        exact h.mono hpanics rfl (by simp)
      simp [hcalm.panic?_eq_none] at hpanic
  | complete result =>
      have hcalm : (s.readWithin stmt token).Calm := by
        rw [readWithin_eq_of_complete hreaction]
        exact h.mono hpanics rfl (by simp)
      simp [hcalm.panic?_eq_none] at hpanic
  | refuse fault =>
      obtain rfl := Option.some.inj ((h.readWithin_of_refuse hreaction).symm.trans hpanic)
      exact ⟨_, readWithin_eq_of_refuse hreaction s⟩

theorem Calm.readBetween_eq_broken (h : s.Calm)
    (hpanic : (s.readBetween token).panic? = some error) :
    ∃ errors, s.readBetween token = broken { s with errors := error :: errors } token := by
  have hnone : s.panic? ≠ some error := by
    rw [h.panic?_eq_none]
    exact nofun
  rw [Unfinished.readBetween] at hpanic ⊢
  split at hpanic
  · exact absurd hpanic hnone
  · exact absurd hpanic hnone
  · exact absurd hpanic hnone
  · exact absurd hpanic hnone
  · exact h.readWithin_eq_broken hpanic

theorem Calm.read_eq_broken (h : s.Calm) (hpanic : (s.read token).panic? = some error) :
    ∃ errors, s.read token = broken { s with errors := error :: errors } token := by
  cases hposition : s.position with
  | between =>
      rw [read_of_between hposition] at hpanic ⊢
      exact h.readBetween_eq_broken hpanic
  | within stmt =>
      rw [read_of_within hposition] at hpanic ⊢
      exact h.readWithin_eq_broken hpanic
  | skipping => exact absurd hposition h.position

end Unfinished

/-- If no block is open at the first error that breaks a statement off, the tokens from where
reading goes on are read by themselves. -/
theorem Parsed.ofTokens_of_panic {before : List Token}
    (hbefore : ∀ t ∈ before, t.kind ≠ .eof) (hkind : token.kind ≠ .eof)
    (hrest : ∀ t ∈ rest, t.kind ≠ .eof) (hstop : stop.kind = .eof)
    (hbrace : ∀ t ∈ before, t.kind ≠ .leftBrace)
    (hcalm : (before.foldl Unfinished.read .start).Calm)
    (hpanic : ((before.foldl Unfinished.read .start).read token).panic? = some error)
    (after : List Token) :
    ∃ program errors, ofTokens (before ++ token :: (rest ++ stop :: after)) =
      { program := program ++
          (ofTokens (rest.drop (skipped token rest) ++ stop :: after)).program
        errors := errors ++ [error] ++
          (ofTokens (rest.drop (skipped token rest) ++ stop :: after)).errors } := by
  obtain ⟨errors, hbroken⟩ := hcalm.read_eq_broken hpanic
  generalize hs : before.foldl Unfinished.read .start = s at hbroken
  have houter : s.outer = [] := by
    rw [← hs]
    exact Unfinished.foldl_read_outer_eq_nil rfl hbrace
  -- The reader as it is where reading goes on.
  let resumed : Unfinished := { s with position := .between, errors := error :: errors }
  have hatRest : resumed.AtRest := ⟨rfl, houter⟩
  have hall : ∀ t ∈ before ++ token :: rest, t.kind ≠ .eof :=
    List.forall_mem_append.mpr ⟨hbefore, List.forall_mem_cons.mpr ⟨hkind, hrest⟩⟩
  have hkept : ∀ t ∈ rest.drop (skipped token rest), t.kind ≠ .eof :=
    fun t ht ↦ hrest t (List.mem_of_mem_drop ht)
  have hread : ofTokens (before ++ token :: (rest ++ stop :: after)) =
      ((rest.drop (skipped token rest)).foldl Unfinished.read resumed).finish stop := by
    rw [← List.cons_append, ← List.append_assoc, ofTokens_append_end hall hstop,
      List.foldl_append, List.foldl_cons, hs, hbroken]
    exact Unfinished.broken_foldl_read (s := resumed) rfl rest stop
  refine ⟨(resumed.finish stop).program, errors.reverse, ?_⟩
  rw [hread, ofTokens_append_end hkept hstop]
  have hbehind := ((hatRest.behind_start stop).foldl_read (rest.drop (skipped token rest))).finish
    stop
  rw [hbehind, hatRest.finish]
  simp [resumed]

end Lox
