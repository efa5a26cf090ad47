import Mathlib.Data.List.TakeWhile

/-!
# Parenthesised forms

A form is a word, or a word and forms in parentheses. Words have neither spaces nor parentheses, so
the text of a form can be read back, also with text behind it that starts with a space or a closing
parenthesis.
-/

namespace Lox

inductive Form where
  | word (text : List Char)
  | list (head : List Char) (items : List Form)

namespace Form

mutual

def text : Form → List Char
  | word text => text
  | list head items => '(' :: (head ++ (textOfAll items ++ [')']))

/-- Forms as they stand behind a head, each behind a space. -/
def textOfAll : List Form → List Char
  | [] => []
  | item :: rest => ' ' :: (item.text ++ textOfAll rest)

end

/-! ## Words -/

def isSeparator (c : Char) : Bool := c == ' ' || c == '(' || c == ')'

theorem isSeparator_iff {c : Char} : isSeparator c = true ↔ c = ' ' ∨ c = '(' ∨ c = ')' := by
  rw [isSeparator, Bool.or_eq_true, Bool.or_eq_true, beq_iff_eq, beq_iff_eq, beq_iff_eq, or_assoc]

structure IsBare (word : List Char) : Prop where
  ne_nil : word ≠ []
  not_separator : ∀ c ∈ word, isSeparator c = false

/-- What stands behind a form starts with a space or a closing parenthesis. -/
def Closes (rest : List Char) : Prop := ∀ c ∈ rest.head?, c = ' ' ∨ c = ')'

mutual

/-- All words of a form are bare. -/
def HasBareWords : Form → Prop
  | word text => IsBare text
  | list head items => IsBare head ∧ HaveBareWords items

def HaveBareWords : List Form → Prop
  | [] => True
  | item :: rest => item.HasBareWords ∧ HaveBareWords rest

end

variable {rest rest' : List Char}

theorem closes_space (rest : List Char) : Closes (' ' :: rest) := by simp [Closes]

theorem closes_parenthesis (rest : List Char) : Closes (')' :: rest) := by simp [Closes]

theorem closes_textOfAll (items : List Form) (rest : List Char) :
    Closes (textOfAll items ++ ')' :: rest) := by
  cases items with
  | nil => exact closes_parenthesis rest
  | cons item items => exact closes_space _

/-- A bare word ends where the first separator stands. -/
theorem IsBare.takeWhile_append {word : List Char} (h : IsBare word) (hrest : Closes rest) :
    (word ++ rest).takeWhile (!isSeparator ·) = word := by
  have hword : ∀ c ∈ word, (!isSeparator c) = true := by
    intro c hc
    rw [h.not_separator c hc]
    rfl
  rw [List.takeWhile_append_of_pos hword]
  cases rest with
  | nil => simp
  | cons c rest =>
      rcases hrest c rfl with rfl | rfl
      · simp [isSeparator]
      · simp [isSeparator]

theorem IsBare.append_inj {word word' : List Char} (h : IsBare word) (h' : IsBare word')
    (hrest : Closes rest) (hrest' : Closes rest') (heq : word ++ rest = word' ++ rest') :
    word = word' ∧ rest = rest' := by
  have hword := h.takeWhile_append hrest
  rw [heq, h'.takeWhile_append hrest'] at hword
  subst hword
  exact ⟨rfl, List.append_cancel_left heq⟩

theorem IsBare.ne_parenthesis {word text : List Char} (h : IsBare word) (rest : List Char) :
    word ++ rest ≠ '(' :: text := by
  obtain ⟨c, tail, rfl⟩ := List.exists_cons_of_ne_nil h.ne_nil
  intro heq
  cases heq
  exact absurd (h.not_separator '(' List.mem_cons_self) (by decide)

/-! ## Reading back -/

mutual

/-- The text of a form says the form and where it ends. -/
theorem text_append_inj {a b : Form} {rest rest' : List Char} (ha : a.HasBareWords)
    (hb : b.HasBareWords) (hrest : Closes rest) (hrest' : Closes rest')
    (h : a.text ++ rest = b.text ++ rest') : a = b ∧ rest = rest' := by
  match a, b with
  | word text, word text' =>
      obtain ⟨rfl, rfl⟩ := IsBare.append_inj ha hb hrest hrest' h
      exact ⟨rfl, rfl⟩
  | word text, list head items => exact absurd h (IsBare.ne_parenthesis ha rest)
  | list head items, word text => exact absurd h.symm (IsBare.ne_parenthesis hb rest')
  | list head items, list head' items' =>
      simp only [Form.text, List.cons_append, List.append_assoc, List.cons.injEq, true_and,
        List.nil_append] at h
      obtain ⟨rfl, hitems⟩ :=
        ha.1.append_inj hb.1 (closes_textOfAll items rest) (closes_textOfAll items' rest') h
      obtain ⟨rfl, rfl⟩ := textOfAll_append_inj ha.2 hb.2 hitems
      exact ⟨rfl, rfl⟩

theorem textOfAll_append_inj {a b : List Form} {rest rest' : List Char} (ha : HaveBareWords a)
    (hb : HaveBareWords b) (h : textOfAll a ++ ')' :: rest = textOfAll b ++ ')' :: rest') :
    a = b ∧ rest = rest' := by
  match a, b with
  | [], [] => exact ⟨rfl, List.cons_inj_right _ |>.mp h⟩
  | [], item :: items => simp [textOfAll] at h
  | item :: items, [] => simp [textOfAll] at h
  | item :: items, item' :: items' =>
      simp only [textOfAll, List.cons_append, List.append_assoc, List.cons.injEq, true_and] at h
      obtain ⟨rfl, hitems⟩ :=
        text_append_inj ha.1 hb.1 (closes_textOfAll items rest) (closes_textOfAll items' rest') h
      obtain ⟨rfl, rfl⟩ := textOfAll_append_inj ha.2 hb.2 hitems
      exact ⟨rfl, rfl⟩

end

theorem text_injective {a b : Form} (ha : a.HasBareWords) (hb : b.HasBareWords)
    (h : a.text = b.text) : a = b := by
  have hclosed : Closes [] := by simp [Closes]
  refine (text_append_inj ha hb hclosed hclosed ?_).1
  rw [h]

end Form

end Lox
