import Lox.Syntax.Program

/-!
# A cursor into a list of tokens

A reader by descent looks at its tokens through a cursor, which only moves forward. All that such a
reader does to its tokens is done here, and each access is kept on record. In front of an end of
input the cursor never passes that end, and no access reaches behind it.
-/

namespace Lox.Descent

/-- An access to the tokens: where the cursor stood, and the index that was read. -/
structure Access where
  current : Nat
  index : Nat

/-- A reader by descent. Errors and accesses stand last first. -/
structure State where
  current : Nat
  errors : List SyntaxError
  accesses : List Access

/-- What a reader does. There is no result if it goes on for ever or if it reads at an index where
no token stands. -/
abbrev Walk := StateT State Option

/-- What a reader does for a rule of the grammar. An error breaks the rule off. -/
abbrev Rule := ExceptT SyntaxError Walk

namespace State

def start : State := { current := 0, errors := [], accesses := [] }

def looked (s : State) (index : Nat) : State :=
  { s with accesses := ⟨s.current, index⟩ :: s.accesses }

end State

def note (error : SyntaxError) : Walk Unit :=
  modify fun s ↦ { s with errors := error :: s.errors }

/-! ## Access and motion -/

/-- What a reader goes through. -/
abbrev Tokens := List Token

namespace Tokens

variable (tokens : Tokens)

def look (index : Nat) : Walk Token := do
  modify fun s ↦ s.looked index
  liftM tokens[index]?

/-- The token at the cursor, or the last one if the cursor stands behind all. -/
def peek : Walk Token := do
  tokens.look (min (← get).current (tokens.length - 1))

def previous : Walk Token := do
  tokens.look ((← get).current - 1)

def atEnd : Walk Bool := do
  return (← tokens.peek).isEnd

def check (kind : Kind) : Walk Bool := do
  if ← tokens.atEnd then
    return false
  else
    return (← tokens.peek).kind == kind

/-- Moves on by one token, but not at the end of input. -/
def advance : Walk Token := do
  if ← tokens.atEnd then
    tokens.previous
  else
    modify fun s ↦ { s with current := s.current + 1 }
    tokens.previous

/-- Moves on if a token of one of the kinds is next. -/
def accept (kinds : List Kind) : Walk Bool := do
  if ← kinds.anyM tokens.check then
    let _ ← tokens.advance
    return true
  else
    return false

/-- Moves on if a token of the kind is next, which else is an error. -/
def expect (kind : Kind) (fault : SyntaxFault) : Rule Token := do
  if ← tokens.check kind then
    tokens.advance
  else
    throw ⟨← tokens.peek, fault⟩

end Tokens

/-! ## Walks that end -/

section

variable {α β : Type} {s : State}

/-- The walk has a result, and it ends as told. -/
def Ends (walk : Walk α) (s : State) (post : α → State → Prop) : Prop :=
  ∃ a t, walk s = some (a, t) ∧ post a t

theorem Ends.mono {walk : Walk α} {mid post : α → State → Prop} (h : Ends walk s mid)
    (hpost : ∀ a t, mid a t → post a t) : Ends walk s post := by
  obtain ⟨a, t, hwalk, hmid⟩ := h
  exact ⟨a, t, hwalk, hpost a t hmid⟩

/-- A walk has one result, so what is known of it can be put together. -/
theorem Ends.and {walk : Walk α} {post other : α → State → Prop} (h : Ends walk s post)
    (hother : Ends walk s other) : Ends walk s fun a t ↦ post a t ∧ other a t := by
  obtain ⟨a, t, hwalk, hpost⟩ := h
  obtain ⟨b, u, hsame, hother⟩ := hother
  obtain ⟨rfl, rfl⟩ := Prod.mk.inj (Option.some.inj (hwalk.symm.trans hsame))
  exact ⟨a, t, hwalk, hpost, hother⟩

theorem Ends.pure {a : α} {post : α → State → Prop} (h : post a s) :
    Ends (Pure.pure a) s post :=
  ⟨a, s, rfl, h⟩

theorem Ends.bind {walk : Walk α} {next : α → Walk β} {mid : α → State → Prop}
    {post : β → State → Prop} (h : Ends walk s mid)
    (hnext : ∀ a t, mid a t → Ends (next a) t post) : Ends (walk >>= next) s post := by
  obtain ⟨a, t, hwalk, hmid⟩ := h
  obtain ⟨b, u, hrest, hpost⟩ := hnext a t hmid
  refine ⟨b, u, ?_, hpost⟩
  show (walk s).bind (fun p ↦ next p.1 p.2) = some (b, u)
  rw [hwalk]
  exact hrest

/-- A rule goes on behind a part that has not broken off. -/
theorem Ends.rule {part : Rule α} {next : α → Rule β} {mid : Except SyntaxError α → State → Prop}
    {post : Except SyntaxError β → State → Prop} (h : Ends part.run s mid)
    (hok : ∀ a t, mid (.ok a) t → Ends (next a).run t post)
    (herror : ∀ error t, mid (.error error) t → post (.error error) t) :
    Ends (part >>= next).run s post := by
  rw [ExceptT.run_bind]
  refine h.bind fun result t hmid ↦ ?_
  cases result with
  | ok a => exact hok a t hmid
  | error error => exact .pure (herror error t hmid)

/-- A walk is no part of a rule that could break it off. -/
theorem Ends.lift {walk : Walk α} {post : α → State → Prop} (h : Ends walk s post) :
    Ends (liftM walk : Rule α).run s fun result t ↦ ∃ a, result = .ok a ∧ post a t := by
  obtain ⟨a, t, hwalk, hpost⟩ := h
  refine ⟨.ok a, t, ?_, a, rfl, hpost⟩
  show (walk s).bind (fun p ↦ some (Except.ok p.1, p.2)) = some (Except.ok a, t)
  rw [hwalk]
  rfl

theorem Ends.walk {walk : Walk α} {next : α → Rule β} {mid : α → State → Prop}
    {post : Except SyntaxError β → State → Prop} (h : Ends walk s mid)
    (hnext : ∀ a t, mid a t → Ends (next a).run t post) :
    Ends ((liftM walk : Rule α) >>= next).run s post := by
  refine h.lift.rule ?_ ?_
  · rintro a t ⟨_, heq, hmid⟩
    cases heq
    exact hnext a t hmid
  · rintro error t ⟨_, heq, _⟩
    cases heq

end

/-! ## Motion in front of an end -/

/-- From `s` to `t` the cursor has moved forward, as far as `stop` at most. All places on its way
are on record, and nothing was read behind the cursor. -/
structure Moves (stop : Nat) (s t : State) : Prop where
  le : s.current ≤ t.current
  le_stop : t.current ≤ stop
  kept : s.accesses ⊆ t.accesses
  new : ∀ a ∈ t.accesses, a ∈ s.accesses ∨ a.current ≤ stop ∧ a.index ≤ a.current
  passed : ∀ i, s.current < i → i ≤ t.current → ∃ a ∈ t.accesses, a.current = i

namespace Moves

variable {stop : Nat} {s t u : State}

theorem refl (h : s.current ≤ stop) : Moves stop s s :=
  ⟨Nat.le_refl _, h, List.Subset.refl _, fun _ ha ↦ .inl ha,
    fun _ hlt hle ↦ absurd hle (Nat.not_le_of_lt hlt)⟩

theorem trans (h : Moves stop s t) (hrest : Moves stop t u) : Moves stop s u := by
  refine ⟨Nat.le_trans h.le hrest.le, hrest.le_stop, List.Subset.trans h.kept hrest.kept, ?_, ?_⟩
  · intro a ha
    rcases hrest.new a ha with ha | ha
    · exact h.new a ha
    · exact .inr ha
  · intro i hi hiu
    rcases Nat.lt_or_ge t.current i with hlt | hle
    · exact hrest.passed i hlt hiu
    · obtain ⟨a, ha, hai⟩ := h.passed i hi hle
      exact ⟨a, hrest.kept ha, hai⟩

end Moves

/-! ## Tokens with an end of input -/

/-- Tokens up to the first end of input, and others behind it. -/
structure Input where
  body : List Token
  ending : Token
  after : List Token
  body_kind : ∀ token ∈ body, token.kind ≠ .eof
  ending_kind : ending.kind = .eof

namespace Input

variable (input : Input)

def tokens : Tokens := input.body ++ input.ending :: input.after

/-- The index of the end of input. -/
def stop : Nat := input.body.length

/-- The token at an index, where the end of input stands for all behind it. -/
def token (i : Nat) : Token := input.body[i]?.getD input.ending

variable {input} {i n m : Nat} {kind : Kind} {kinds : List Kind} {s t u : State}

theorem token_mem (h : i < input.stop) : input.token i ∈ input.body := by
  rw [token, List.getElem?_eq_getElem h]
  exact List.getElem_mem h

theorem token_of_le (h : input.stop ≤ i) : input.token i = input.ending := by
  rw [token, List.getElem?_eq_none h]
  rfl

theorem drop_body (h : i < input.stop) :
    input.body.drop i = input.token i :: input.body.drop (i + 1) := by
  rw [token, List.getElem?_eq_getElem h]
  exact List.drop_eq_getElem_cons h

theorem kind_token_eq_eof_iff : (input.token i).kind = .eof ↔ input.stop ≤ i := by
  rcases Nat.lt_or_ge i input.stop with hlt | hle
  · simp [hlt, input.body_kind _ (token_mem hlt)]
  · simp [hle, token_of_le hle, input.ending_kind]

theorem lt_stop_of_kind (hne : kind ≠ .eof) (h : (input.token i).kind = kind) : i < input.stop := by
  refine Nat.lt_of_not_le fun hge ↦ hne ?_
  rw [← h]
  exact kind_token_eq_eof_iff.mpr hge

theorem stop_lt_length : input.stop < input.tokens.length := by
  simp [tokens, stop]

theorem getElem?_tokens (h : i ≤ input.stop) : input.tokens[i]? = some (input.token i) := by
  rcases Nat.lt_or_eq_of_le h with hlt | rfl
  · rw [tokens, List.getElem?_append_left hlt, token, List.getElem?_eq_getElem hlt]
    rfl
  · rw [token_of_le (Nat.le_refl _), tokens, stop, List.getElem?_append_right (Nat.le_refl _),
      Nat.sub_self]
    rfl

/-! ## What a reader does in front of the end -/

/-- The cursor has moved by `n` tokens, and no error has been noted. -/
structure Passes (input : Input) (n : Nat) (s t : State) : Prop extends Moves input.stop s t where
  current_eq : t.current = s.current + n
  errors_eq : t.errors = s.errors

theorem Passes.trans (h : input.Passes n s t) (hrest : input.Passes m t u) :
    input.Passes (n + m) s u :=
  ⟨h.toMoves.trans hrest.toMoves, by rw [hrest.current_eq, h.current_eq, Nat.add_assoc],
    hrest.errors_eq.trans h.errors_eq⟩

theorem Passes.current_same (h : input.Passes 0 s t) : t.current = s.current := h.current_eq

theorem passes_looked (h : s.current ≤ input.stop) (hi : i ≤ s.current) :
    input.Passes 0 s (s.looked i) := by
  refine ⟨⟨Nat.le_refl _, h, List.subset_cons_self _ _, ?_, ?_⟩, rfl, rfl⟩
  · intro a ha
    rcases List.mem_cons.mp ha with rfl | ha
    · exact .inr ⟨h, hi⟩
    · exact .inl ha
  · intro i hlt hle
    exact absurd hle (Nat.not_le_of_lt hlt)

theorem look_eq (h : i ≤ input.stop) (s : State) :
    input.tokens.look i s = some (input.token i, s.looked i) := by
  show ((input.tokens[i]?).bind fun token ↦ some (token, s.looked i)) = _
  rw [getElem?_tokens h]
  rfl

theorem peek_eq (h : s.current ≤ input.stop) :
    input.tokens.peek s = some (input.token s.current, s.looked s.current) := by
  have hlength := input.stop_lt_length
  have hmin : min s.current (input.tokens.length - 1) = s.current := by omega
  show input.tokens.look (min s.current (input.tokens.length - 1)) s = _
  rw [hmin, look_eq h]

theorem previous_eq (h : s.current ≤ input.stop) :
    input.tokens.previous s = some (input.token (s.current - 1), s.looked (s.current - 1)) :=
  look_eq (Nat.le_trans (Nat.sub_le _ _) h) s

theorem peek_ends (h : s.current ≤ input.stop) :
    Ends input.tokens.peek s fun token t ↦
      token = input.token s.current ∧ input.Passes 0 s t :=
  ⟨_, _, peek_eq h, rfl, passes_looked h (Nat.le_refl _)⟩

theorem previous_ends (h : s.current ≤ input.stop) :
    Ends input.tokens.previous s fun token t ↦
      token = input.token (s.current - 1) ∧ input.Passes 0 s t :=
  ⟨_, _, previous_eq h, rfl, passes_looked h (Nat.sub_le _ _)⟩

theorem Passes.peek_ends (h : input.Passes 0 s t) :
    Ends input.tokens.peek t fun token u ↦
      token = input.token s.current ∧ input.Passes 0 s u := by
  rw [← h.current_same]
  exact (Input.peek_ends h.le_stop).mono fun _ _ hpeek ↦ ⟨hpeek.1, h.trans hpeek.2⟩

theorem Passes.previous_ends (h : input.Passes 0 s t) :
    Ends input.tokens.previous t fun token u ↦
      token = input.token (s.current - 1) ∧ input.Passes 0 s u := by
  rw [← h.current_same]
  exact (Input.previous_ends h.le_stop).mono fun _ _ hprevious ↦
    ⟨hprevious.1, h.trans hprevious.2⟩

theorem atEnd_ends (h : s.current ≤ input.stop) :
    Ends input.tokens.atEnd s fun found t ↦
      (found = true ↔ s.current = input.stop) ∧ input.Passes 0 s t := by
  refine (peek_ends h).bind ?_
  rintro token t ⟨htoken, hpasses⟩
  refine .pure ⟨?_, hpasses⟩
  rw [htoken, Token.isEnd, beq_iff_eq, kind_token_eq_eof_iff]
  omega

theorem atEnd_recorded (h : s.current ≤ input.stop) :
    Ends input.tokens.atEnd s fun _ t ↦ ⟨s.current, s.current⟩ ∈ t.accesses :=
  Ends.bind ⟨_, _, peek_eq h, List.mem_cons_self⟩ fun _ _ hmem ↦ .pure hmem

theorem check_ends (h : s.current ≤ input.stop) (hne : kind ≠ .eof) :
    Ends (input.tokens.check kind) s fun found t ↦
      (found = true ↔ (input.token s.current).kind = kind) ∧ input.Passes 0 s t := by
  refine (atEnd_ends h).bind ?_
  rintro found t ⟨hfound, hpasses⟩
  split
  next hend =>
    have hcurrent := hfound.mp hend
    refine .pure ⟨⟨by simp, fun hkind ↦ ?_⟩, hpasses⟩
    exact absurd hcurrent (Nat.ne_of_lt (lt_stop_of_kind hne hkind))
  next hend =>
    refine hpasses.peek_ends.bind ?_
    rintro token u ⟨htoken, hlast⟩
    refine .pure ⟨?_, hlast⟩
    rw [beq_iff_eq, htoken]

theorem passes_advanced (h : s.current < input.stop) :
    input.Passes 1 s (State.looked { s with current := s.current + 1 } s.current) := by
  refine ⟨⟨Nat.le_succ _, h, List.subset_cons_self _ _, ?_, ?_⟩, rfl, rfl⟩
  · intro a ha
    rcases List.mem_cons.mp ha with rfl | ha
    · exact .inr ⟨h, Nat.le_succ _⟩
    · exact .inl ha
  · intro i hlt hle
    exact ⟨_, List.mem_cons_self, Nat.le_antisymm hlt hle⟩

theorem advance_ends (h : s.current < input.stop) :
    Ends input.tokens.advance s fun token t ↦
      token = input.token s.current ∧ input.Passes 1 s t := by
  refine (atEnd_ends (Nat.le_of_lt h)).bind ?_
  rintro found t ⟨hfound, hpasses⟩
  have hcurrent := hpasses.current_eq
  have hlt : t.current < input.stop := by omega
  rw [if_neg (by rw [hfound]; omega)]
  refine ⟨_, _, previous_eq (s := { t with current := t.current + 1 }) hlt, ?_, ?_⟩
  · exact congrArg input.token hcurrent
  · exact hpasses.trans (passes_advanced hlt)

/-- At the end of input the cursor stays where it is. -/
theorem advance_ends_of_eq (h : s.current = input.stop) :
    Ends input.tokens.advance s fun _ t ↦ input.Passes 0 s t := by
  refine (atEnd_ends (Nat.le_of_eq h)).bind ?_
  rintro found t ⟨hfound, hpasses⟩
  rw [if_pos (hfound.mpr h)]
  exact hpasses.previous_ends.mono fun _ _ hprevious ↦ hprevious.2

theorem anyM_check_ends (h : s.current ≤ input.stop) (hne : .eof ∉ kinds) :
    Ends (kinds.anyM input.tokens.check) s fun found t ↦
      (found = true ↔ (input.token s.current).kind ∈ kinds) ∧ input.Passes 0 s t := by
  induction kinds generalizing s with
  | nil => exact .pure ⟨by simp, ⟨.refl h, rfl, rfl⟩⟩
  | cons kind kinds ih =>
      obtain ⟨hkind, hkinds⟩ := not_or.mp (mt List.mem_cons.mpr hne)
      refine (check_ends h (Ne.symm hkind)).bind ?_
      rintro found t ⟨hfound, hpasses⟩
      cases found with
      | true => exact .pure ⟨by simp [hfound.mp rfl], hpasses⟩
      | false =>
          have hother : (input.token s.current).kind ≠ kind := by simp [← hfound]
          refine (ih hpasses.le_stop hkinds).mono ?_
          rintro rest u ⟨hrest, hlast⟩
          refine ⟨?_, hpasses.trans hlast⟩
          rw [hrest, hpasses.current_same, List.mem_cons, or_iff_right hother]

theorem accept_ends_of_mem (h : s.current ≤ input.stop) (hne : .eof ∉ kinds)
    (hmem : (input.token s.current).kind ∈ kinds) :
    Ends (input.tokens.accept kinds) s fun found t ↦ found = true ∧ input.Passes 1 s t := by
  refine (anyM_check_ends h hne).bind ?_
  rintro found t ⟨hfound, hpasses⟩
  have hcurrent := hpasses.current_eq
  have hlt := lt_stop_of_kind (fun heq ↦ hne (heq ▸ hmem)) (rfl : (input.token s.current).kind = _)
  rw [if_pos (hfound.mpr hmem)]
  refine (advance_ends (by omega)).bind ?_
  rintro token u ⟨_, hlast⟩
  exact .pure ⟨rfl, hpasses.trans hlast⟩

theorem accept_ends_of_not_mem (h : s.current ≤ input.stop) (hne : .eof ∉ kinds)
    (hmem : (input.token s.current).kind ∉ kinds) :
    Ends (input.tokens.accept kinds) s fun found t ↦ found = false ∧ input.Passes 0 s t := by
  refine (anyM_check_ends h hne).bind ?_
  rintro found t ⟨hfound, hpasses⟩
  rw [if_neg (mt hfound.mp hmem)]
  exact .pure ⟨rfl, hpasses⟩

theorem expect_ends_of_eq (h : s.current ≤ input.stop) (hne : kind ≠ .eof)
    (heq : (input.token s.current).kind = kind) (fault : SyntaxFault) :
    Ends (input.tokens.expect kind fault).run s fun result t ↦
      result = .ok (input.token s.current) ∧ input.Passes 1 s t := by
  refine .walk (check_ends h hne) ?_
  rintro found t ⟨hfound, hpasses⟩
  have hcurrent := hpasses.current_eq
  have hlt := lt_stop_of_kind hne heq
  rw [if_pos (hfound.mpr heq)]
  refine (advance_ends (by omega)).lift.mono ?_
  rintro _ u ⟨_, rfl, rfl, hlast⟩
  refine ⟨?_, hpasses.trans hlast⟩
  rw [hcurrent, Nat.add_zero]

theorem expect_ends_of_ne (h : s.current ≤ input.stop) (hne : kind ≠ .eof)
    (hother : (input.token s.current).kind ≠ kind) (fault : SyntaxFault) :
    Ends (input.tokens.expect kind fault).run s fun result t ↦
      result = .error ⟨input.token s.current, fault⟩ ∧ input.Passes 0 s t := by
  refine .walk (check_ends h hne) ?_
  rintro found t ⟨hfound, hpasses⟩
  rw [if_neg (mt hfound.mp hother)]
  refine .walk hpasses.peek_ends ?_
  rintro _ u ⟨rfl, hlast⟩
  exact .pure ⟨rfl, hlast⟩

theorem note_ends (h : s.current ≤ input.stop) (error : SyntaxError) :
    Ends (note error) s fun _ t ↦
      t.current = s.current ∧ t.errors = error :: s.errors ∧ Moves input.stop s t :=
  ⟨(), _, rfl, rfl, rfl, ⟨Nat.le_refl _, h, List.Subset.refl _, fun _ ha ↦ .inl ha,
    fun _ hlt hle ↦ absurd hle (Nat.not_le_of_lt hlt)⟩⟩

theorem Passes.token_previous (h : input.Passes 1 s t) :
    input.token (t.current - 1) = input.token s.current := by
  rw [h.current_eq, Nat.add_sub_cancel]

end Input

/-! ## Rules that go by the next token -/

namespace Ends

open Descent.Input

variable {α : Type} {input : Input} {kinds : List Kind} {s : State}
  {post : Except SyntaxError α → State → Prop} {first other : Rule α} {next : Token → Rule α}

theorem taken (h : s.current ≤ input.stop) (hne : .eof ∉ kinds)
    (hmem : (input.token s.current).kind ∈ kinds)
    (hfirst : ∀ t, input.Passes 1 s t → Ends first.run t post) :
    Ends ((liftM (input.tokens.accept kinds) : Rule Bool) >>= fun found ↦
      if found = true then first else other).run s post := by
  refine .walk (accept_ends_of_mem h hne hmem) ?_
  rintro _ t ⟨rfl, hpasses⟩
  exact hfirst t hpasses

/-- A token that is taken can be looked at again. -/
theorem kept (h : s.current ≤ input.stop) (hne : .eof ∉ kinds)
    (hmem : (input.token s.current).kind ∈ kinds)
    (hnext : ∀ t, input.Passes 1 s t → Ends (next (input.token s.current)).run t post) :
    Ends ((liftM (input.tokens.accept kinds) : Rule Bool) >>= fun found ↦
      if found = true then (liftM input.tokens.previous : Rule Token) >>= next
      else other).run s post := by
  refine taken h hne hmem fun t hpasses ↦ .walk (previous_ends hpasses.le_stop) ?_
  rintro _ u ⟨rfl, hlast⟩
  rw [hpasses.token_previous]
  exact hnext u (hpasses.trans hlast)

theorem left (h : s.current ≤ input.stop) (hne : .eof ∉ kinds)
    (hmem : (input.token s.current).kind ∉ kinds)
    (hother : ∀ t, input.Passes 0 s t → Ends other.run t post) :
    Ends ((liftM (input.tokens.accept kinds) : Rule Bool) >>= fun found ↦
      if found = true then first else other).run s post := by
  refine .walk (accept_ends_of_not_mem h hne hmem) ?_
  rintro _ t ⟨rfl, hpasses⟩
  exact hother t hpasses

end Ends

end Lox.Descent
