import Mathlib.Data.List.Forall2
import Lox.Proofs.Session.Joined

/-!
# What execution can change

Execution leaves as many scopes as it found, also where it fails. The names of a scope stay, only a
declaration outside of all blocks adds one to the innermost scope, and only a name that is assigned
or declared there can have another value.
-/

namespace Lox

/-! ## Names that a tree can change -/

def Expr.assigned : Expr → List String
  | literal _ | var _ => []
  | group inner => inner.assigned
  | unary _ operand => operand.assigned
  | binary _ left right => left.assigned ++ right.assigned
  | assign name value => name.lexeme :: value.assigned

mutual

def Stmt.assigned : Stmt → List String
  | .expression e | .print _ e | .declare _ (some e) => e.assigned
  | .declare _ none => []
  | .block body => Stmt.assignedInAll body

def Stmt.assignedInAll : List Stmt → List String
  | [] => []
  | s :: rest => s.assigned ++ Stmt.assignedInAll rest

end

/-- The names that a statement declares where it stands. Those in a block belong to the block. -/
def Stmt.declared : Stmt → List String
  | .declare name _ => [name.lexeme]
  | .expression _ | .print _ _ | .block _ => []

def Stmt.declaredInAll (program : List Stmt) : List String := program.flatMap Stmt.declared

/-! ## One scope -/

namespace Scope

/-- The names of a scope stay, others are among the declared ones, and a name that is neither
declared nor assigned keeps its value. -/
structure Changes (declared assigned : List String) (before after : Scope) : Prop where
  kept : ∀ name, before.binds name → after.binds name
  added : ∀ name, after.binds name → before.binds name ∨ name ∈ declared
  lookup_eq : ∀ name, name ∉ declared → name ∉ assigned → after.lookup name = before.lookup name

variable {declared assigned : List String} {before middle after : Scope}

theorem Changes.refl (scope : Scope) : Changes declared assigned scope scope :=
  ⟨fun _ h ↦ h, fun _ h ↦ .inl h, fun _ _ _ ↦ rfl⟩

theorem Changes.mono (h : Changes declared assigned before after)
    {declared' assigned' : List String} (hdeclared : declared ⊆ declared')
    (hassigned : assigned ⊆ assigned') :
    Changes declared' assigned' before after := by
  refine ⟨h.kept, fun name hname ↦ (h.added name hname).imp_right fun hmem ↦ hdeclared hmem, ?_⟩
  intro name hd ha
  exact h.lookup_eq name (fun hmem ↦ hd (hdeclared hmem)) fun hmem ↦ ha (hassigned hmem)

theorem Changes.trans (h : Changes declared assigned before middle)
    (hrest : Changes declared assigned middle after) : Changes declared assigned before after := by
  refine ⟨fun name hname ↦ hrest.kept name (h.kept name hname), ?_, ?_⟩
  · intro name hname
    rcases hrest.added name hname with hmiddle | hdeclared
    · exact h.added name hmiddle
    · exact .inr hdeclared
  · intro name hd ha
    rw [hrest.lookup_eq name hd ha, h.lookup_eq name hd ha]

theorem binds_insert (scope : Scope) (name other : String) (value : Value) :
    (scope.insert name value).binds other ↔ other = name ∨ scope.binds other := by
  rw [binds, binds, lookup_insert]
  by_cases h : other = name <;> simp [h]

theorem insert_changes (scope : Scope) (name : String) (value : Value) :
    Changes [name] [] scope (scope.insert name value) := by
  refine ⟨fun other h ↦ (binds_insert scope name other value).mpr (.inr h), ?_, ?_⟩
  · intro other h
    rcases (binds_insert scope name other value).mp h with rfl | hold
    · exact .inr (List.mem_singleton_self other)
    · exact .inl hold
  · intro other hother _
    rw [lookup_insert, if_neg (fun heq ↦ hother (List.mem_singleton.mpr heq))]

/-- No name is new where the inserted one is bound already. -/
theorem insert_changes_of_binds {scope : Scope} {name : String} (h : scope.binds name)
    (value : Value) : Changes [] [name] scope (scope.insert name value) := by
  have hinsert := insert_changes scope name value
  refine ⟨hinsert.kept, ?_, fun other _ hother ↦ hinsert.lookup_eq other hother List.not_mem_nil⟩
  intro other hother
  rcases (binds_insert scope name other value).mp hother with rfl | hold
  · exact .inl h
  · exact .inl hold

end Scope

/-! ## All scopes -/

namespace Scopes

/-- As many scopes as before, where names are declared in the innermost one only. -/
structure Changes (declared assigned : List String) (before after : Scopes) : Prop where
  inner : before.inner.Changes declared assigned after.inner
  outer : List.Forall₂ (Scope.Changes [] assigned) before.outer after.outer

variable {declared assigned : List String} {before middle after : Scopes}

theorem forall₂_changes_refl (scopes : List Scope) :
    List.Forall₂ (Scope.Changes [] assigned) scopes scopes :=
  List.forall₂_same.mpr fun scope _ ↦ .refl scope

theorem forall₂_changes_trans {front between back : List Scope}
    (h : List.Forall₂ (Scope.Changes [] assigned) front between)
    (hrest : List.Forall₂ (Scope.Changes [] assigned) between back) :
    List.Forall₂ (Scope.Changes [] assigned) front back := by
  induction h generalizing back with
  | nil => exact hrest
  | cons hscope _ ih =>
      cases hrest with
      | cons hnext hrest => exact .cons (hscope.trans hnext) (ih hrest)

theorem Changes.refl (scopes : Scopes) : Changes declared assigned scopes scopes :=
  ⟨.refl scopes.inner, forall₂_changes_refl scopes.outer⟩

theorem Changes.mono (h : Changes declared assigned before after)
    {declared' assigned' : List String} (hdeclared : declared ⊆ declared')
    (hassigned : assigned ⊆ assigned') :
    Changes declared' assigned' before after :=
  ⟨h.inner.mono hdeclared hassigned,
    h.outer.imp fun _ _ hscope ↦ hscope.mono (List.Subset.refl []) hassigned⟩

theorem Changes.trans (h : Changes declared assigned before middle)
    (hrest : Changes declared assigned middle after) : Changes declared assigned before after :=
  ⟨h.inner.trans hrest.inner, forall₂_changes_trans h.outer hrest.outer⟩

/-- One change after the other, each with its own names. -/
theorem Changes.append {declared' assigned' : List String}
    (h : Changes declared assigned before middle)
    (hrest : Changes declared' assigned' middle after) :
    Changes (declared ++ declared') (assigned ++ assigned') before after :=
  (h.mono (List.subset_append_left _ _) (List.subset_append_left _ _)).trans
    (hrest.mono (List.subset_append_right _ _) (List.subset_append_right _ _))

theorem define_changes (scopes : Scopes) (name : String) (value : Value) :
    Changes [name] [] scopes (scopes.define name value) :=
  ⟨Scope.insert_changes scopes.inner name value, forall₂_changes_refl scopes.outer⟩

theorem assignIn_changes {name : String} {value : Value} {scopes result : List Scope}
    (h : assignIn name value scopes = some result) :
    List.Forall₂ (Scope.Changes [] [name]) scopes result := by
  induction scopes generalizing result with
  | nil => cases h
  | cons scope rest ih =>
      rw [assignIn] at h
      split at h
      next hbinds =>
        obtain rfl := Option.some.inj h
        exact .cons (Scope.insert_changes_of_binds hbinds value) (forall₂_changes_refl rest)
      next =>
        obtain ⟨result, hresult, rfl⟩ := Option.map_eq_some_iff.mp h
        exact .cons (.refl scope) (ih hresult)

theorem store_changes {scopes result : Scopes} {name : Token} {value : Value}
    (h : scopes.store name value = .ok result) : Changes [] [name.lexeme] scopes result := by
  rw [store, assign?] at h
  split at h
  next hassign =>
    cases h
    split at hassign
    next hbinds =>
      obtain rfl := Option.some.inj hassign
      exact ⟨Scope.insert_changes_of_binds hbinds value, forall₂_changes_refl scopes.outer⟩
    next =>
      obtain ⟨outer, houter, rfl⟩ := Option.map_eq_some_iff.mp hassign
      exact ⟨.refl scopes.inner, assignIn_changes houter⟩
  next => cases h

/-- What is declared in a block is gone behind it. -/
theorem Changes.leave (h : Changes declared assigned before.enter after) :
    Changes [] assigned before after.leave := by
  obtain ⟨inner, outer⟩ := after
  obtain ⟨-, houter⟩ := h
  cases houter with
  | cons hinner hrest => exact ⟨hinner, hrest⟩

/-! ## Scopes by their distance from the innermost -/

def lookupAt (scopes : Scopes) (distance : Nat) (name : String) : Option Value :=
  scopes.toList[distance]?.bind (·.lookup name)

theorem Changes.depth_eq (h : Changes declared assigned before after) :
    after.depth = before.depth := by
  rw [depth, depth, h.outer.length_eq]

theorem forall₂_changes_getElem? {scopes others : List Scope}
    (h : List.Forall₂ (Scope.Changes [] assigned) scopes others) (i : Nat) (name : String) :
    (others[i]?.bind (·.lookup name)).isSome = (scopes[i]?.bind (·.lookup name)).isSome ∧
      (name ∉ assigned →
        others[i]?.bind (·.lookup name) = scopes[i]?.bind (·.lookup name)) := by
  induction h generalizing i with
  | nil => exact ⟨rfl, fun _ ↦ rfl⟩
  | @cons scope other scopes others hscope hrest ih =>
      cases i with
      | zero =>
          refine ⟨?_, hscope.lookup_eq name List.not_mem_nil⟩
          have hadded := hscope.added name
          rw [Bool.eq_iff_iff]
          exact ⟨fun h ↦ (hadded h).resolve_right List.not_mem_nil, hscope.kept name⟩
      | succ i => exact ih i

theorem Changes.lookupAt_eq (h : Changes declared assigned before after) {distance : Nat}
    {name : String} (hassigned : name ∉ assigned) (hdeclared : distance = 0 → name ∉ declared) :
    after.lookupAt distance name = before.lookupAt distance name := by
  cases distance with
  | zero => exact h.inner.lookup_eq name (hdeclared rfl) hassigned
  | succ i => exact (forall₂_changes_getElem? h.outer i name).2 hassigned

theorem Changes.isSome_lookupAt_eq (h : Changes declared assigned before after) {distance : Nat}
    (hdistance : distance ≠ 0) (name : String) :
    (after.lookupAt distance name).isSome = (before.lookupAt distance name).isSome := by
  cases distance with
  | zero => exact absurd rfl hdistance
  | succ i => exact (forall₂_changes_getElem? h.outer i name).1

end Scopes

/-! ## Execution -/

open Scopes

theorem Expr.eval_changes (e : Expr) (scopes : Scopes) :
    scopes.Changes [] e.assigned (e.eval scopes).1 := by
  induction e generalizing scopes with
  | literal value | var name => exact .refl scopes
  | group inner ih => exact ih scopes
  | unary op operand ih =>
      have hoperand := ih scopes
      rw [eval]
      rcases h : operand.eval scopes with ⟨next, error | value⟩ <;> rw [h] at hoperand <;>
        exact hoperand
  | binary op left right ihl ihr =>
      have hleft := ihl scopes
      rw [eval]
      rcases hl : left.eval scopes with ⟨middle, error | a⟩ <;> rw [hl] at hleft
      · exact hleft.mono (List.Subset.refl []) (List.subset_append_left _ _)
      · have hboth := hleft.append (ihr middle)
        dsimp only
        rcases hr : right.eval middle with ⟨last, error | b⟩ <;> rw [hr] at hboth <;> exact hboth
  | assign name value ih =>
      have hvalue := ih scopes
      rw [eval]
      rcases h : value.eval scopes with ⟨middle, error | v⟩ <;> rw [h] at hvalue
      · exact hvalue.mono (List.Subset.refl []) (List.subset_cons_self _ _)
      · have hmiddle : scopes.Changes [] (name.lexeme :: value.assigned) middle :=
          hvalue.mono (List.Subset.refl []) (List.subset_cons_self _ _)
        dsimp only
        cases hstore : middle.store name v with
        | error error => exact hmiddle
        | ok last =>
            -- The store sees what the value's own assignments left, so the two changes follow
            -- each other.
            have hlast := (store_changes hstore).mono (List.Subset.refl [])
              (List.cons_subset_cons name.lexeme (List.nil_subset value.assigned))
            exact hmiddle.trans hlast

mutual

theorem Stmt.exec_changes (s : Stmt) (session : Session) :
    session.scopes.Changes s.declared s.assigned (s.exec session).1.scopes := by
  match s with
  | .expression e =>
      have hvalue := e.eval_changes session.scopes
      rw [Stmt.exec]
      rcases h : e.eval session.scopes with ⟨next, error | value⟩ <;> rw [h] at hvalue <;>
        exact hvalue
  | .print keyword e =>
      have hvalue := e.eval_changes session.scopes
      rw [Stmt.exec]
      rcases h : e.eval session.scopes with ⟨next, error | value⟩ <;> rw [h] at hvalue
      · exact hvalue
      · dsimp only
        cases session.sink.write value.text <;> exact hvalue
  | .declare name none => exact define_changes session.scopes name.lexeme .nil
  | .declare name (some e) =>
      have hvalue := e.eval_changes session.scopes
      rw [Stmt.exec]
      rcases h : e.eval session.scopes with ⟨next, error | value⟩ <;> rw [h] at hvalue
      · exact hvalue.mono (List.nil_subset _) (List.Subset.refl _)
      · have hdefine := hvalue.append (define_changes next name.lexeme value)
        rw [List.append_nil] at hdefine
        exact hdefine
  | .block body =>
      have hbody := Stmt.execAll_changes body session.enter
      rw [Stmt.exec]
      rcases h : Stmt.execAll session.enter body with ⟨last, error⟩
      rw [h] at hbody
      exact hbody.leave

theorem Stmt.execAll_changes (program : List Stmt) (session : Session) :
    session.scopes.Changes (Stmt.declaredInAll program) (Stmt.assignedInAll program)
      (Stmt.execAll session program).1.scopes := by
  match program with
  | [] => exact .refl session.scopes
  | s :: rest =>
      have hfirst := Stmt.exec_changes s session
      rw [Stmt.execAll]
      rcases h : s.exec session with ⟨middle, _ | error⟩ <;> rw [h] at hfirst
      · exact hfirst.append (Stmt.execAll_changes rest middle)
      · exact hfirst.mono (List.subset_append_left _ _) (List.subset_append_left _ _)

end

/-! ## Runs -/

namespace Session

theorem run_changes (session : Session) (source : String) :
    ∃ declared assigned, session.scopes.Changes declared assigned (session.run source).1.scopes ∧
      ∀ name ∈ declared, ∃ program, programOf source = .ok program ∧
        name ∈ Stmt.declaredInAll program := by
  cases hprogram : programOf source with
  | error failure =>
      have hsame : (session.run source).1 = session := by simp [run, hprogram]
      rw [hsame]
      exact ⟨[], [], .refl session.scopes, by simp⟩
  | ok program =>
      rw [run_of_ok hprogram]
      exact ⟨_, _, Stmt.execAll_changes program session, fun name hname ↦ ⟨program, rfl, hname⟩⟩

/-- Runs in a row add no names but those that their programs declare outside of all blocks. -/
theorem runAll_changes (session : Session) (sources : List String) :
    ∃ declared assigned, session.scopes.Changes declared assigned (session.runAll sources).scopes ∧
      ∀ name ∈ declared, ∃ source ∈ sources, ∃ program, programOf source = .ok program ∧
        name ∈ Stmt.declaredInAll program := by
  induction sources generalizing session with
  | nil => exact ⟨[], [], .refl session.scopes, by simp⟩
  | cons source rest ih =>
      obtain ⟨declared, assigned, hsource, hdeclared⟩ := session.run_changes source
      obtain ⟨declared', assigned', hrest, hdeclared'⟩ := ih (session.run source).1
      refine ⟨declared ++ declared', assigned ++ assigned', hsource.append hrest, ?_⟩
      intro name hname
      rcases List.mem_append.mp hname with hfirst | hlater
      · exact ⟨source, List.mem_cons_self, hdeclared name hfirst⟩
      · obtain ⟨later, hmem, hprogram⟩ := hdeclared' name hlater
        exact ⟨later, List.mem_cons_of_mem source hmem, hprogram⟩

/-- Whether or not a statement fails, the scopes are as many as before, all names stay, only a
declaration adds one, to the innermost scope, and only names that are assigned or declared there
have other values. So runs from nothing end in the outermost scope, with no name that stood in a
block only. -/
theorem execute_balanced (session : Session) (stmt : Stmt) :
    let before := session.scopes
    let after := (session.execute [stmt]).1.scopes
    after.depth = before.depth ∧
      (∀ distance ≠ 0, ∀ name,
        (after.lookupAt distance name).isSome = (before.lookupAt distance name).isSome) ∧
      (∀ name, (before.lookupAt 0 name).isSome → (after.lookupAt 0 name).isSome) ∧
      (∀ name, (after.lookupAt 0 name).isSome →
        (before.lookupAt 0 name).isSome ∨ name ∈ stmt.declared) ∧
      (∀ distance name, (before.lookupAt distance name).isSome →
        after.lookupAt distance name ≠ before.lookupAt distance name →
          name ∈ stmt.assigned ∨ distance = 0 ∧ name ∈ stmt.declared) ∧
      ∀ sink sources,
        let last := (Session.mk .empty sink).runAll sources
        last.scopes.depth = 1 ∧
          ∀ name, (last.scopes.get? name).isSome →
            ∃ source ∈ sources, ∃ program, programOf source = .ok program ∧
              name ∈ Stmt.declaredInAll program := by
  intro before after
  have hchanges : before.Changes stmt.declared stmt.assigned after := by
    have hall := Stmt.execAll_changes [stmt] session
    rw [← execute_eq] at hall
    simpa only [Stmt.declaredInAll, Stmt.assignedInAll, List.flatMap_singleton, List.append_nil]
      using hall
  refine ⟨hchanges.depth_eq, ?_, hchanges.inner.kept, hchanges.inner.added, ?_, ?_⟩
  · intro distance hdistance name
    exact hchanges.isSome_lookupAt_eq hdistance name
  · intro distance name _ hne
    by_contra hnone
    obtain ⟨hassigned, hdeclared⟩ := not_or.mp hnone
    exact hne (hchanges.lookupAt_eq hassigned fun hzero hmem ↦ hdeclared ⟨hzero, hmem⟩)
  · intro sink sources last
    obtain ⟨declared, assigned, hlast, hdeclared⟩ := (Session.mk .empty sink).runAll_changes sources
    refine ⟨hlast.depth_eq, ?_⟩
    intro name hvisible
    have hinner : last.scopes.inner.binds name := by
      have houter : last.scopes.outer = [] := List.forall₂_nil_left_iff.mp hlast.outer
      rw [Scopes.get?, Scopes.toList, houter, List.findSome?_singleton] at hvisible
      exact hvisible
    rcases hlast.inner.added name hinner with hempty | hmem
    · exact absurd hempty Bool.false_ne_true
    · exact hdeclared name hmem

end Session

end Lox
