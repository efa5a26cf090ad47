import Lox.Proofs.Scoping.Resolution

/-!
# Lexical scoping

While a program runs, its scopes bind the names that the walk over its trees keeps, to the values
last stored into their slots. So a name that is read has the value last stored into the slot that it
resolves to, and a name without a slot is an error.
-/

namespace Lox

/-- Values stored into slots, the last first. -/
abbrev Stores := List (Slot × Value)

namespace Stores

def ofGlobals (globals : Scope) : Stores := globals.map fun (name, value) ↦ (⟨0, name⟩, value)

def latest (stored : Stores) (slot : Slot) : Option Value := List.lookup slot stored

theorem latest_cons (stored : Stores) (slot other : Slot) (value : Value) :
    latest ((slot, value) :: stored) other =
      if other = slot then some value else stored.latest other := by
  unfold latest
  by_cases h : other = slot
  · simp [h]
  · simp [List.lookup_cons, h, beq_false_of_ne h]

theorem latest_ofGlobals (globals : Scope) (name : String) :
    (ofGlobals globals).latest ⟨0, name⟩ = globals.lookup name := by
  induction globals with
  | nil => rfl
  | cons binding globals ih =>
      obtain ⟨other, value⟩ := binding
      have hcons : ofGlobals ((other, value) :: globals) =
          (⟨0, other⟩, value) :: ofGlobals globals := rfl
      rw [hcons, latest_cons, ih]
      by_cases h : name = other
      · simp [h]
      · simp [List.lookup_cons, h, beq_false_of_ne h]

end Stores

namespace Machine

/-- What a step with its slot stores. -/
def noted (m : Machine) (stored : Stores) : Step × Option Slot → Stores
  | (.store _, some slot) | (.define _, some slot) =>
      match m.operands with
      | value :: _ => (slot, value) :: stored
      | [] => stored
  | _ => stored

/-- What steps with their slots store, up to the first that fails. -/
def storedAlong (m : Machine) (stored : Stores) : List (Step × Option Slot) → Stores
  | [] => stored
  | pair :: rest =>
      match m.perform pair.1 with
      | .ok next => next.storedAlong (m.noted stored pair) rest
      | .error _ => stored

end Machine

/-! ## Scopes and sets of names -/

/-- A scope binds the names of a set, to the values last stored into their slots. -/
structure NameSet.Describes (set : NameSet) (stored : Stores) (scope : Scope) : Prop where
  binds_iff : ∀ name, scope.binds name ↔ name ∈ set.names
  lookup_eq : ∀ name ∈ set.names, scope.lookup name = stored.latest (set.slot name)

/-- Scopes are those of sets of different blocks. -/
inductive Describe (stored : Stores) : List NameSet → List Scope → Prop
  | nil : Describe stored [] []
  | cons {set : NameSet} {sets : List NameSet} {scope : Scope} {scopes : List Scope}
      (hset : set.Describes stored scope) (hother : ∀ other ∈ sets, other.block ≠ set.block)
      (hrest : Describe stored sets scopes) : Describe stored (set :: sets) (scope :: scopes)

namespace NameSet.Describes

variable {set : NameSet} {stored : Stores} {scope : Scope}

theorem store_other (h : set.Describes stored scope) {slot : Slot} (hblock : set.block ≠ slot.block)
    (value : Value) : set.Describes ((slot, value) :: stored) scope := by
  constructor
  · exact h.binds_iff
  intro name hname
  have hslot : set.slot name ≠ slot := fun heq ↦ hblock (congrArg Slot.block heq)
  rw [Stores.latest_cons, if_neg hslot]
  exact h.lookup_eq name hname

theorem insert (h : set.Describes stored scope) (name : String) (value : Value) :
    (set.add name).Describes ((set.slot name, value) :: stored) (scope.insert name value) := by
  constructor
  · intro other
    have hbinds := h.binds_iff other
    rw [Scope.binds] at hbinds ⊢
    rw [Scope.lookup_insert]
    by_cases hother : other = name <;> simp [hother, NameSet.add, hbinds]
  · intro other hmem
    rw [Scope.lookup_insert, Stores.latest_cons]
    by_cases hother : other = name
    · simp [hother, NameSet.add, slot]
    · have hslot : (set.add name).slot other ≠ set.slot name := fun heq ↦
        hother (congrArg Slot.name heq)
      rw [if_neg hother, if_neg hslot]
      have hold : other ∈ set.names := by simpa [NameSet.add, hother] using hmem
      exact h.lookup_eq other hold

end NameSet.Describes

theorem NameSet.add_of_mem {set : NameSet} {name : String} (h : name ∈ set.names) :
    set.add name = set := by
  rw [NameSet.add, List.insert_of_mem h]

theorem resolveIn_block {name : String} {sets : List NameSet} {slot : Slot}
    (h : resolveIn name sets = some slot) : ∃ set ∈ sets, set.block = slot.block := by
  induction sets with
  | nil => cases h
  | cons set sets ih =>
      rw [resolveIn] at h
      split at h
      · cases h
        exact ⟨set, List.mem_cons_self, rfl⟩
      · obtain ⟨other, hother, hblock⟩ := ih h
        exact ⟨other, List.mem_cons_of_mem _ hother, hblock⟩

namespace Describe

variable {stored : Stores} {sets : List NameSet} {scopes : List Scope}

theorem store_other (h : Describe stored sets scopes) {slot : Slot}
    (hblock : ∀ set ∈ sets, set.block ≠ slot.block) (value : Value) :
    Describe ((slot, value) :: stored) sets scopes := by
  induction h with
  | nil => exact .nil
  | cons hset hother _ ih =>
      obtain ⟨hfirst, hrest⟩ := List.forall_mem_cons.mp hblock
      exact .cons (hset.store_other hfirst value) hother (ih hrest)

theorem define {set : NameSet} {scope : Scope}
    (h : Describe stored (set :: sets) (scope :: scopes)) (name : String) (value : Value) :
    Describe ((set.slot name, value) :: stored) (set.add name :: sets)
      (scope.insert name value :: scopes) := by
  cases h with
  | cons hset hother hrest =>
      exact .cons (hset.insert name value) hother (hrest.store_other hother value)

/-- A name means what was last stored into its slot. -/
theorem lookup (h : Describe stored sets scopes) (name : String) :
    scopes.findSome? (·.lookup name) = (resolveIn name sets).bind stored.latest ∧
      ((resolveIn name sets).bind stored.latest).isSome = (resolveIn name sets).isSome := by
  induction h with
  | nil => exact ⟨rfl, rfl⟩
  | @cons set sets scope scopes hset hother hrest ih =>
      have hbinds := hset.binds_iff name
      rw [resolveIn]
      rw [List.findSome?_cons]
      by_cases hname : name ∈ set.names
      · obtain ⟨value, hvalue⟩ := Option.isSome_iff_exists.mp (hbinds.mpr hname)
        have hlookup := hset.lookup_eq name hname
        rw [hvalue] at hlookup
        simp [hname, hvalue, ← hlookup]
      · have hnone : scope.lookup name = none := by
          rw [← Option.not_isSome_iff_eq_none]
          exact mt hbinds.mp hname
        simpa [hname, hnone] using ih

/-- A name that is assigned gives its slot the new value. -/
theorem assignIn (h : Describe stored sets scopes) (name : String) (value : Value) :
    match resolveIn name sets with
    | none => Scopes.assignIn name value scopes = none
    | some slot => ∃ result, Scopes.assignIn name value scopes = some result ∧
        Describe ((slot, value) :: stored) sets result := by
  induction h with
  | nil => rfl
  | @cons set sets scope scopes hset hother hrest ih =>
      have hbinds := hset.binds_iff name
      rw [resolveIn, Scopes.assignIn]
      by_cases hname : name ∈ set.names
      · rw [if_pos hname, if_pos (hbinds.mpr hname)]
        have hnew := define (.cons hset hother hrest) name value
        rw [NameSet.add_of_mem hname] at hnew
        exact ⟨_, rfl, hnew⟩
      · rw [if_neg hname, if_neg (mt hbinds.mp hname)]
        cases hslot : resolveIn name sets with
        | none =>
            rw [hslot] at ih
            exact congrArg _ ih
        | some slot =>
            rw [hslot] at ih
            obtain ⟨result, hassign, hresult⟩ := ih
            obtain ⟨other, hmem, hblock⟩ := resolveIn_block hslot
            have hdifferent : set.block ≠ slot.block := hblock ▸ (hother other hmem).symm
            rw [hassign]
            exact ⟨scope :: result, rfl, .cons (hset.store_other hdifferent value) hother hresult⟩

end Describe

/-! ## Running with resolved names -/

theorem Scopes.assignIn_toList (s : Scopes) (name : String) (value : Value) :
    assignIn name value s.toList = (s.assign? name value).map toList := by
  obtain ⟨inner, outer⟩ := s
  rw [toList, assignIn, assign?]
  by_cases hinner : inner.binds name
  · simp [hinner, define, toList]
  · cases hassign : assignIn name value outer <;> simp [hinner, toList]

namespace Resolver

/-- The scopes bind the names of the sets, in blocks that have been numbered. -/
structure Describes (r : Resolver) (stored : Stores) (scopes : Scopes) : Prop where
  sets : Describe stored r.sets scopes.toList
  numbered : ∀ set ∈ r.sets, set.block ≤ r.blocks

theorem ofNames_describes (globals : Scope) :
    (ofNames (globals.map Prod.fst)).Describes (.ofGlobals globals)
      { inner := globals, outer := [] } := by
  have hset : NameSet.Describes ⟨0, globals.map Prod.fst⟩ (.ofGlobals globals) globals := by
    constructor
    · intro name
      simp [Scope.binds]
    · intro name _
      exact (Stores.latest_ofGlobals globals name).symm
  constructor
  · exact .cons hset nofun .nil
  · intro set hmem
    rw [List.mem_singleton.mp hmem]
    exact Nat.le_refl 0

variable {r : Resolver} {stored : Stores} {scopes : Scopes}

theorem Describes.load (h : r.Describes stored scopes) (name : Token) :
    match r.resolve name with
    | none => scopes.load name = .error ⟨name, .undefined name.lexeme⟩
    | some slot => ∃ value, stored.latest slot = some value ∧ scopes.load name = .ok value := by
  obtain ⟨hget, hsome⟩ := h.sets.lookup name.lexeme
  have hload : scopes.get? name.lexeme = (r.resolve name).bind stored.latest := hget
  rw [Scopes.load]
  rw [hload]
  cases hslot : r.resolve name with
  | none => rfl
  | some slot =>
      have hlatest : (stored.latest slot).isSome := by
        rw [resolve] at hslot
        simpa [hslot] using hsome
      obtain ⟨value, hvalue⟩ := Option.isSome_iff_exists.mp hlatest
      exact ⟨value, hvalue, by simp [hvalue]⟩

theorem Describes.store (h : r.Describes stored scopes) (name : Token) (value : Value) :
    match r.resolve name with
    | none => scopes.store name value = .error ⟨name, .undefined name.lexeme⟩
    | some slot => ∃ result, scopes.store name value = .ok result ∧
        r.Describes ((slot, value) :: stored) result := by
  have hassign := h.sets.assignIn name.lexeme value
  rw [Scopes.assignIn_toList] at hassign
  rw [resolve, Scopes.store]
  cases hslot : resolveIn name.lexeme r.sets with
  | none =>
      rw [hslot] at hassign
      rw [Option.map_eq_none_iff.mp hassign]
  | some slot =>
      rw [hslot] at hassign
      obtain ⟨list, hmap, hlist⟩ := hassign
      obtain ⟨result, hresult, rfl⟩ := Option.map_eq_some_iff.mp hmap
      rw [hresult]
      exact ⟨result, rfl, hlist, h.numbered⟩

theorem Describes.define (h : r.Describes stored scopes) (name : Token) (value : Value) :
    (r.declare name).Describes ((r.inner.slot name.lexeme, value) :: stored)
      (scopes.define name.lexeme value) :=
  ⟨h.sets.define name.lexeme value,
    List.forall_mem_cons.mpr (List.forall_mem_cons.mp h.numbered)⟩

theorem Describes.enter (h : r.Describes stored scopes) :
    r.push.Describes stored scopes.enter := by
  have hnew : ∀ set ∈ r.sets, set.block ≠ r.blocks + 1 := by
    intro set hset
    have hle := h.numbered set hset
    omega
  have hempty : NameSet.Describes ⟨r.blocks + 1, []⟩ stored [] :=
    ⟨fun _ ↦ iff_of_false nofun nofun, nofun⟩
  constructor
  · exact .cons hempty hnew h.sets
  · intro set hset
    rcases List.mem_cons.mp hset with rfl | hset
    · exact Nat.le_refl _
    · exact Nat.le_succ_of_le (h.numbered set hset)

theorem Describes.leave (h : r.Describes stored scopes) : r.pop.Describes stored scopes.leave := by
  obtain ⟨inner, outer, blocks⟩ := r
  obtain ⟨scope, scopes⟩ := scopes
  obtain ⟨hsets, hnumbered⟩ := h
  cases hsets with
  | cons hset hother hrest =>
      cases hrest with
      | nil => exact ⟨.cons hset hother .nil, hnumbered⟩
      | cons hset' hother' hrest' =>
          exact ⟨.cons hset' hother' hrest', fun set hmem ↦
            hnumbered set (List.mem_cons_of_mem _ hmem)⟩

end Resolver

namespace Machine

open Resolver

variable {m next last : Machine} {r : Resolver} {stored : Stores} {step : Step}

/-- A step keeps to the names of the walk. -/
theorem Moves.describes (hmoves : m.Moves step next) (h : r.Describes stored m.scopes) :
    (r.after step).Describes (m.noted stored (step, r.slot? step)) next.scopes := by
  cases hmoves with
  | inside hkeeps => cases step <;> first | exact h | cases hkeeps
  | @store name value rest scopes hoperands hstore =>
      have hresult := h.store name value
      unfold noted slot? after
      dsimp only
      cases hslot : r.resolve name with
      | none =>
          rw [hslot] at hresult
          cases hstore.symm.trans hresult
      | some slot =>
          rw [hslot] at hresult
          obtain ⟨result, hok, hdescribes⟩ := hresult
          cases hstore.symm.trans hok
          simpa [hoperands] using hdescribes
  | define hoperands => simpa [noted, slot?, after, hoperands] using h.define _ _
  | enter => exact h.enter
  | leave => exact h.leave

theorem Performs.describes {steps : List Step} (hsteps : m.Performs steps last)
    (h : r.Describes stored m.scopes) :
    (steps.foldl after r).Describes (m.storedAlong stored (r.walk steps)) last.scopes := by
  induction hsteps generalizing r stored with
  | nil m => exact h
  | cons hready hstep _ ih =>
      rw [List.foldl_cons, walk_cons, storedAlong, hstep]
      apply ih
      exact (perform_moves hready hstep).describes h

end Machine

namespace Resolver.Describes

variable {r : Resolver} {stored : Stores} {m : Machine}

theorem perform_load (h : r.Describes stored m.scopes) (name : Token) :
    match r.resolve name with
    | none => m.perform (.load name) = .error ⟨name, .undefined name.lexeme⟩
    | some slot => ∃ value, stored.latest slot = some value ∧
        m.perform (.load name) = .ok { m with operands := value :: m.operands } := by
  have hload := h.load name
  rw [Machine.perform_load]
  cases hslot : r.resolve name with
  | none =>
      rw [hslot] at hload
      rw [hload]
      rfl
  | some slot =>
      rw [hslot] at hload
      obtain ⟨value, hlatest, hvalue⟩ := hload
      rw [hvalue]
      exact ⟨value, hlatest, rfl⟩

theorem perform_store (h : r.Describes stored m.scopes) {name : Token}
    (hready : m.Ready (.store name)) :
    match r.resolve name with
    | none => m.perform (.store name) = .error ⟨name, .undefined name.lexeme⟩
    | some _ => ∃ next, m.perform (.store name) = .ok next := by
  obtain ⟨value, rest, hoperands⟩ := hready.exists_operand rfl
  have hstore := h.store name value
  rw [Machine.perform_store hoperands]
  cases hslot : r.resolve name with
  | none =>
      rw [hslot] at hstore
      rw [hstore]
      rfl
  | some slot =>
      rw [hslot] at hstore
      obtain ⟨scopes, hscopes, -⟩ := hstore
      rw [hscopes]
      exact ⟨_, rfl⟩

/-- Names without a slot are errors, and no others. -/
theorem perform_undefined (h : r.Describes stored m.scopes) {step : Step} (hready : m.Ready step)
    {name : Token} (hstep : step = .load name ∨ step = .store name) :
    (m.perform step = .error ⟨name, .undefined name.lexeme⟩ ↔ r.slot? step = none) ∧
      ((r.slot? step).isSome → ∃ next, m.perform step = .ok next) := by
  have hboth : match r.slot? step with
      | none => m.perform step = .error ⟨name, .undefined name.lexeme⟩
      | some _ => ∃ next, m.perform step = .ok next := by
    rcases hstep with rfl | rfl
    · have hload := h.perform_load name
      rw [slot?_load]
      cases hslot : r.resolve name <;> rw [hslot] at hload
      · exact hload
      · obtain ⟨value, -, hvalue⟩ := hload
        exact ⟨_, hvalue⟩
    · rw [slot?_store]
      exact h.perform_store hready
  cases hslot : r.slot? step with
  | none =>
      rw [hslot] at hboth
      exact ⟨iff_of_true hboth rfl, nofun⟩
  | some slot =>
      rw [hslot] at hboth
      obtain ⟨next, hnext⟩ := hboth
      rw [hnext]
      constructor
      · exact iff_of_false nofun nofun
      · intro _
        exact ⟨next, rfl⟩

end Resolver.Describes

/-- Whatever a run does before, a name that it reads or assigns is undefined exactly if the walk
over the trees finds no slot for it, and a name that it reads has the value last stored into its
slot. -/
theorem Session.scoping_is_lexical (globals : Scope) (sink : Sink) (program : List Stmt) :
    let session : Session := { scopes := { inner := globals, outer := [] }, sink }
    let resolved := (Stmt.resolvedAll (.ofNames (globals.map Prod.fst)) program).1
    resolved.map Prod.fst = Stmt.stepsOfAll program ∧
      ∀ front step slot? rest m, resolved = front ++ (step, slot?) :: rest →
        session.begin.run (front.map Prod.fst) = (m, none) →
          let stored := session.begin.storedAlong (.ofGlobals globals) front
          (∀ error, m.perform step = .error error →
            session.execute program = (m.finish, some error)) ∧
          (∀ name, step = .load name ∨ step = .store name →
            (m.perform step = .error ⟨name, .undefined name.lexeme⟩ ↔ slot? = none) ∧
              (slot?.isSome → ∃ next, m.perform step = .ok next)) ∧
          ∀ name slot, step = .load name → slot? = some slot →
            ∃ value, stored.latest slot = some value ∧
              m.perform step = .ok { m with operands := value :: m.operands } := by
  intro session resolved
  have hresolved : resolved = Resolver.walk _ (Stmt.postOrderAll program) :=
    congrArg Prod.fst (Stmt.resolvedAll_eq_walk _ program)
  constructor
  · rw [hresolved, Resolver.map_fst_walk, Stmt.stepsOfAll_eq_postOrderAll]
  intro front step slot? rest m hsplit hrun stored
  obtain ⟨hsteps, hwalk, rfl⟩ := Resolver.walk_eq_append (hresolved.symm.trans hsplit)
  have hends := Machine.ends_postOrderAll program session.begin
  rw [hsteps] at hends
  have hfront := hends.performs hrun
  have hready := (hends.of_performs hfront).ready
  have hdescribes := hfront.describes (Resolver.ofNames_describes globals)
  rw [hwalk] at hdescribes
  refine ⟨?_, ?_, ?_⟩
  · intro error herror
    have hfails : session.begin.Fails (Stmt.postOrderAll program) m error :=
      ⟨front.map Prod.fst, step, rest.map Prod.fst, hsteps, hfront, hready, herror⟩
    rw [execute, Stmt.stepsOfAll_eq_postOrderAll, hfails.run_eq]
    rfl
  · intro name hname
    exact hdescribes.perform_undefined hready hname
  · rintro name slot rfl hslot
    have hload := hdescribes.perform_load name
    rw [Resolver.slot?_load] at hslot
    rw [hslot] at hload
    exact hload

end Lox
