import Mathlib.Data.List.Pairwise
import Mathlib.Logic.Function.Basic
import Lox.Execution.Scopes

/-!
# Bindings by name

Bindings can be kept by name as well as by scope: for each name the values that it is bound to, the
innermost first, each with the depth of its scope. Operations on such bindings, and what a row of
them leaves as it was.
-/

namespace Lox

/-- What can be done with bindings, one thing at a time. -/
inductive ScopeOperation where
  | enter
  | leave
  | define (name : String) (value : Value)
  | load (name : Token)
  | store (name : Token) (value : Value)

/-- A value if the operation loads one, or an error, and the depth behind the operation. -/
structure ScopeAnswer where
  result : Except RuntimeError (Option Value)
  depth : Nat

/-- The values of one name, the innermost first, each with the depth of its scope. -/
abbrev NameStack := List (Nat × Value)

namespace NameStack

/-- Binds the name at the given depth, in place of the innermost binding if that has this depth. -/
def define (depth : Nat) (value : Value) : NameStack → NameStack
  | [] => [(depth, value)]
  | (d, old) :: outer =>
      if d = depth then (d, value) :: outer else (depth, value) :: (d, old) :: outer

/-- Gives the innermost binding another value. -/
def store (value : Value) : NameStack → NameStack
  | [] => []
  | (d, _) :: outer => (d, value) :: outer

/-- Drops what is bound at the given depth. -/
def leave (depth : Nat) (stack : NameStack) : NameStack := stack.filter (·.1 ≠ depth)

/-- Depths decrease outwards, from the given one at most. -/
structure Within (depth : Nat) (stack : NameStack) : Prop where
  decreasing : stack.Pairwise fun inner outer ↦ outer.1 < inner.1
  le : ∀ binding ∈ stack, binding.1 ≤ depth

variable {depth : Nat} {stack : NameStack}

theorem Within.nil : Within depth [] := ⟨.nil, List.forall_mem_nil _⟩

theorem Within.mono (h : Within depth stack) {deeper : Nat} (hdepth : depth ≤ deeper) :
    Within deeper stack :=
  ⟨h.decreasing, fun binding hmem ↦ Nat.le_trans (h.le binding hmem) hdepth⟩

theorem Within.cons (h : Within depth stack) {deeper : Nat} (hdepth : depth < deeper)
    (value : Value) : Within deeper ((deeper, value) :: stack) :=
  ⟨.cons (fun binding hmem ↦ Nat.lt_of_le_of_lt (h.le binding hmem) hdepth) h.decreasing,
    List.forall_mem_cons.mpr ⟨Nat.le_refl _, (h.mono (Nat.le_of_lt hdepth)).le⟩⟩

theorem within_cons_iff {binding : Nat × Value} :
    Within depth (binding :: stack) ↔
      binding.1 ≤ depth ∧ (∀ outer ∈ stack, outer.1 < binding.1) ∧ Within depth stack := by
  constructor
  · rintro ⟨hdecreasing, hle⟩
    obtain ⟨hhead, htail⟩ := List.pairwise_cons.mp hdecreasing
    obtain ⟨hbinding, hstack⟩ := List.forall_mem_cons.mp hle
    exact ⟨hbinding, hhead, htail, hstack⟩
  · rintro ⟨hbinding, hhead, htail, hstack⟩
    exact ⟨.cons hhead htail, List.forall_mem_cons.mpr ⟨hbinding, hstack⟩⟩

theorem Within.store (h : Within depth stack) (value : Value) :
    Within depth (store value stack) := by
  cases stack with
  | nil => exact .nil
  | cons binding outer =>
      obtain ⟨hle, hhead, houter⟩ := within_cons_iff.mp h
      exact within_cons_iff.mpr ⟨hle, hhead, houter⟩

theorem Within.define (h : Within depth stack) (value : Value) :
    Within depth (define depth value stack) := by
  cases stack with
  | nil => exact within_cons_iff.mpr ⟨Nat.le_refl _, List.forall_mem_nil _, .nil⟩
  | cons binding outer =>
      obtain ⟨d, old⟩ := binding
      obtain ⟨hle, hhead, houter⟩ := within_cons_iff.mp h
      rw [NameStack.define]
      split
      · exact within_cons_iff.mpr ⟨hle, hhead, houter⟩
      next hne =>
        have hlt : d < depth := Nat.lt_of_le_of_ne hle hne
        refine within_cons_iff.mpr ⟨Nat.le_refl _, ?_, h⟩
        refine List.forall_mem_cons.mpr ⟨hlt, ?_⟩
        intro later hlater
        exact Nat.lt_trans (hhead later hlater) hlt

theorem Within.leave (h : Within depth stack) : Within (depth - 1) (leave depth stack) := by
  refine ⟨h.decreasing.filter _, ?_⟩
  intro binding hmem
  obtain ⟨hstack, hne⟩ := List.mem_filter.mp hmem
  have hle := h.le binding hstack
  have hne := of_decide_eq_true hne
  omega

/-! ## What stays -/

/-- Something is bound at the given depth. -/
def Binds (d : Nat) (stack : NameStack) : Prop := ∃ value, (d, value) ∈ stack

variable {d : Nat}

theorem Binds.define (h : Binds d stack) (depth : Nat) (value : Value) :
    Binds d (define depth value stack) := by
  obtain ⟨old, hmem⟩ := h
  cases stack with
  | nil => cases hmem
  | cons binding outer =>
      rw [NameStack.define]
      split
      · rcases List.mem_cons.mp hmem with rfl | hmem
        · exact ⟨value, List.mem_cons_self⟩
        · exact ⟨old, List.mem_cons_of_mem _ hmem⟩
      · exact ⟨old, List.mem_cons_of_mem _ hmem⟩

theorem Binds.store (h : Binds d stack) (value : Value) : Binds d (store value stack) := by
  obtain ⟨old, hmem⟩ := h
  cases stack with
  | nil => cases hmem
  | cons binding outer =>
      rcases List.mem_cons.mp hmem with rfl | hmem
      · exact ⟨value, List.mem_cons_self⟩
      · exact ⟨old, List.mem_cons_of_mem _ hmem⟩

theorem Binds.leave (h : Binds d stack) (hne : d ≠ depth) : Binds d (leave depth stack) := by
  obtain ⟨value, hmem⟩ := h
  exact ⟨value, List.mem_filter.mpr ⟨hmem, decide_eq_true hne⟩⟩

theorem binds_define (depth : Nat) (value : Value) (stack : NameStack) :
    Binds depth (define depth value stack) := by
  cases stack with
  | nil => exact ⟨value, List.mem_cons_self⟩
  | cons binding outer =>
      rw [NameStack.define]
      split
      next heq => exact ⟨value, heq ▸ List.mem_cons_self⟩
      · exact ⟨value, List.mem_cons_self⟩

/-- The bindings of the scopes up to the given depth. -/
def upTo (depth : Nat) (stack : NameStack) : NameStack := stack.filter (·.1 ≤ depth)

theorem Within.upTo_eq (h : Within depth stack) : upTo depth stack = stack :=
  List.filter_eq_self.mpr fun binding hmem ↦ decide_eq_true (h.le binding hmem)

theorem Within.leave_eq (h : Within (depth + 1) stack) :
    NameStack.leave (depth + 1) stack = upTo depth stack := by
  apply List.filter_congr
  intro binding hmem
  have hle := h.le binding hmem
  rw [decide_eq_decide]
  omega

variable {outer : Nat}

theorem upTo_leave (h : outer < depth) :
    upTo outer (NameStack.leave depth stack) = upTo outer stack := by
  rw [upTo, NameStack.leave, List.filter_filter]
  apply List.filter_congr
  intro binding _
  rw [← Bool.decide_and, decide_eq_decide]
  omega

theorem upTo_define (h : outer < depth) (value : Value) :
    upTo outer (NameStack.define depth value stack) = upTo outer stack := by
  have hdepth : ¬ depth ≤ outer := Nat.not_le_of_lt h
  cases stack with
  | nil => simp [NameStack.define, upTo, hdepth]
  | cons binding rest =>
      obtain ⟨d, old⟩ := binding
      rw [NameStack.define]
      split
      next heq => simp [upTo, heq, hdepth]
      · simp [upTo, hdepth]

end NameStack

/-- The bindings of all names, and the depth of the innermost scope. -/
@[ext]
structure Bindings where
  depth : Nat
  stack : String → NameStack
  depth_pos : 0 < depth
  within : ∀ name, (stack name).Within depth

namespace Bindings

def empty : Bindings :=
  { depth := 1, stack := fun _ ↦ [], depth_pos := Nat.one_pos, within := fun _ ↦ .nil }

def enter (b : Bindings) : Bindings :=
  { b with
    depth := b.depth + 1
    depth_pos := Nat.succ_pos b.depth
    within := fun name ↦ (b.within name).mono (Nat.le_succ b.depth) }

/-- The outermost scope is never left. -/
def leave (b : Bindings) : Bindings :=
  if h : b.depth = 1 then b
  else
    { depth := b.depth - 1
      stack := fun name ↦ (b.stack name).leave b.depth
      depth_pos := Nat.sub_pos_of_lt (Nat.lt_of_le_of_ne b.depth_pos (Ne.symm h))
      within := fun name ↦ (b.within name).leave }

def replace (b : Bindings) (name : String) (stack : NameStack) (h : stack.Within b.depth) :
    Bindings :=
  { b with
    stack := Function.update b.stack name stack
    within := by
      intro other
      by_cases hother : other = name
      · rw [hother, Function.update_self]
        exact h
      · rw [Function.update_of_ne hother]
        exact b.within other }

def define (b : Bindings) (name : String) (value : Value) : Bindings :=
  b.replace name _ ((b.within name).define value)

def load (b : Bindings) (name : Token) : Except RuntimeError Value :=
  match (b.stack name.lexeme).head? with
  | some (_, value) => .ok value
  | none => .error ⟨name, .undefined name.lexeme⟩

def store (b : Bindings) (name : Token) (value : Value) : Except RuntimeError Bindings :=
  if (b.stack name.lexeme).isEmpty then .error ⟨name, .undefined name.lexeme⟩
  else .ok (b.replace name.lexeme _ ((b.within name.lexeme).store value))

/-- An operation that fails leaves the bindings as they are. -/
def perform (b : Bindings) : ScopeOperation → Bindings × Except RuntimeError (Option Value)
  | .enter => (b.enter, .ok none)
  | .leave => (b.leave, .ok none)
  | .define name value => (b.define name value, .ok none)
  | .load name => (b, (b.load name).map some)
  | .store name value =>
      match b.store name value with
      | .ok stored => (stored, .ok none)
      | .error error => (b, .error error)

def answers (b : Bindings) : List ScopeOperation → List ScopeAnswer
  | [] => []
  | operation :: rest =>
      let (next, result) := b.perform operation
      ⟨result, next.depth⟩ :: next.answers rest

/-- The bindings behind a row of operations. -/
def after (b : Bindings) (operations : List ScopeOperation) : Bindings :=
  operations.foldl (fun b operation ↦ (b.perform operation).1) b

variable {b : Bindings} {name : String} {operation : ScopeOperation}

@[simp] theorem stack_replace (stack : NameStack) (h : stack.Within b.depth) (other : String) :
    (b.replace name stack h).stack other = if other = name then stack else b.stack other :=
  Function.update_apply _ _ _ _

theorem stack_define (value : Value) (other : String) :
    (b.define name value).stack other =
      if other = name then (b.stack name).define b.depth value else b.stack other :=
  stack_replace _ _ other

theorem stack_leave (h : b.depth ≠ 1) (name : String) :
    b.leave.stack name = (b.stack name).leave b.depth := by
  rw [leave, dif_neg h]

theorem stack_perform_store (token : Token) (value : Value) (other : String) :
    (b.perform (.store token value)).1.stack other =
      if other = token.lexeme then (b.stack other).store value else b.stack other := by
  rw [perform, store]
  by_cases hempty : (b.stack token.lexeme).isEmpty
  · have hnil : b.stack token.lexeme = [] := List.isEmpty_iff.mp hempty
    by_cases hother : other = token.lexeme <;> simp [hother, hnil, NameStack.store]
  · by_cases hother : other = token.lexeme <;> simp [hother, hempty]

/-- No operation takes a name out of the outermost scope. -/
theorem binds_one_perform (h : (b.stack name).Binds 1) (operation : ScopeOperation) :
    ((b.perform operation).1.stack name).Binds 1 := by
  cases operation with
  | enter | load => exact h
  | leave =>
      rw [perform]
      by_cases hdepth : b.depth = 1
      · rwa [leave, dif_pos hdepth]
      · rw [stack_leave hdepth]
        exact h.leave (Ne.symm hdepth)
  | define other value =>
      rw [perform, stack_define]
      split
      next hname => exact (hname ▸ h).define b.depth value
      · exact h
  | store other value =>
      rw [stack_perform_store]
      split
      · exact h.store value
      · exact h

theorem binds_one_after (h : (b.stack name).Binds 1) (operations : List ScopeOperation) :
    ((b.after operations).stack name).Binds 1 := by
  induction operations generalizing b with
  | nil => exact h
  | cons operation rest ih => exact ih (binds_one_perform h operation)

/-! ## Inside of a scope -/

/-- Inside of deeper scopes, only an assignment changes the bindings of a name further out. -/
theorem upTo_perform {depth : Nat} (h : depth < b.depth) (operation : ScopeOperation)
    (hstore : ∀ token value, operation = .store token value → token.lexeme ≠ name) :
    ((b.perform operation).1.stack name).upTo depth = (b.stack name).upTo depth := by
  cases operation with
  | enter | load => rfl
  | leave =>
      rw [perform]
      by_cases hone : b.depth = 1
      · rw [leave, dif_pos hone]
      · rw [stack_leave hone, NameStack.upTo_leave h]
  | define other value =>
      rw [perform, stack_define]
      split
      next hname => rw [NameStack.upTo_define h, hname]
      · rfl
  | store other value => rw [stack_perform_store, if_neg (hstore other value rfl).symm]

theorem upTo_after {depth : Nat} {operations : List ScopeOperation}
    (hdepth : ∀ front, front <+: operations → depth < (b.after front).depth)
    (hstore : ∀ token value, .store token value ∈ operations → token.lexeme ≠ name) :
    ((b.after operations).stack name).upTo depth = (b.stack name).upTo depth := by
  induction operations generalizing b with
  | nil => rfl
  | cons operation rest ih =>
      have hfirst := upTo_perform (hdepth [] List.nil_prefix) operation
        fun token value heq ↦ hstore token value (heq ▸ List.mem_cons_self)
      refine (ih ?_ ?_).trans hfirst
      · intro front hfront
        exact hdepth (operation :: front) (List.cons_prefix_cons.mpr ⟨rfl, hfront⟩)
      · intro token value hmem
        exact hstore token value (List.mem_cons_of_mem _ hmem)

/-- What is done inside of a scope leaves a name as it was around it, if it is not assigned. -/
theorem stack_after_enter_leave {operations : List ScopeOperation}
    (hdepth : ∀ front, front <+: operations → b.depth < (b.enter.after front).depth)
    (hlast : (b.enter.after operations).depth = b.depth + 1)
    (hstore : ∀ token value, .store token value ∈ operations → token.lexeme ≠ name) :
    (b.enter.after operations).leave.stack name = b.stack name := by
  have hwithin := (b.enter.after operations).within name
  have hdeeper : (b.enter.after operations).depth ≠ 1 := by
    have hpos := b.depth_pos
    omega
  rw [hlast] at hwithin
  rw [stack_leave hdeeper, hlast, hwithin.leave_eq, upTo_after hdepth hstore]
  exact (b.within name).upTo_eq

end Bindings

end Lox
