import Lox.Proofs.Dump.Plain
import Lox.Proofs.Relining.Basic
import Lox.Syntax.Dump

/-!
# Dumps say the tree

A tree that is read from plain tokens is dumped as the text of a form with bare words, so the dump
says the form. The form says the tree up to lines, since operators, names and plain values have
texts of their own.
-/

namespace Lox

/-! ## Trees as forms -/

def Expr.form : Expr → Form
  | literal value => .word value.text.toList
  | group inner => .list "group".toList [inner.form]
  | unary op operand => .list op.lexeme.toList [operand.form]
  | binary op left right => .list op.lexeme.toList [left.form, right.form]
  | var name => .word name.lexeme.toList
  | assign name value => .list "=".toList [.word name.lexeme.toList, value.form]

mutual

def Stmt.form : Stmt → Form
  | .expression e => .list ";".toList [e.form]
  | .print _ e => .list "print".toList [e.form]
  | .declare name none => .list "var".toList [.word name.lexeme.toList]
  | .declare name (some e) => .list "var".toList [.word name.lexeme.toList, e.form]
  | .block body => .list "block".toList (Stmt.formsOfAll body)

def Stmt.formsOfAll : List Stmt → List Form
  | [] => []
  | s :: rest => s.form :: Stmt.formsOfAll rest

end

theorem Stmt.formsOfAll_eq_map (body : List Stmt) : formsOfAll body = body.map form := by
  induction body with
  | nil => rfl
  | cons s rest ih => rw [formsOfAll, ih, List.map_cons]

theorem Expr.toList_dump (e : Expr) : e.dump.toList = e.form.text := by
  induction e with
  | literal value => simp [form, Form.text]
  | group inner ih => simp [form, Form.text, Form.textOfAll, ih]
  | unary op operand ih => simp [form, Form.text, Form.textOfAll, ih]
  | binary op left right ihl ihr => simp [form, Form.text, Form.textOfAll, ihl, ihr]
  | var name => simp [form, Form.text]
  | assign name value ih => simp [form, Form.text, Form.textOfAll, ih]

namespace Stmt

mutual

theorem toList_dump (s : Stmt) : s.dump.toList = s.form.text := by
  match s with
  | expression e => simp [form, Form.text, Form.textOfAll, e.toList_dump]
  | print keyword e => simp [form, Form.text, Form.textOfAll, e.toList_dump]
  | declare name none => simp [form, Form.text, Form.textOfAll]
  | declare name (some e) => simp [form, Form.text, Form.textOfAll, e.toList_dump]
  | block body => simp [form, Form.text, toList_dumpSpaced body]

theorem toList_dumpSpaced (body : List Stmt) :
    (dumpSpaced body).toList = Form.textOfAll (formsOfAll body) := by
  match body with
  | [] => simp [dumpSpaced, formsOfAll, Form.textOfAll]
  | s :: rest =>
      have hrest := toList_dumpSpaced rest
      rw [dumpSpaced] at hrest ⊢
      simp [formsOfAll, Form.textOfAll, String.join_cons, toList_dump s, hrest]

end

end Stmt

/-! ## Plain trees -/

/-- Operators stand where operators belong, names where names belong, and all tokens and values are
plain. -/
inductive Expr.IsPlain : Expr → Prop
  | literal {value : Value} (h : value.IsPlain) : IsPlain (literal value)
  | group {inner : Expr} (h : inner.IsPlain) : IsPlain (group inner)
  | unary {op : Token} {operand : Expr} (hop : op.IsPlain) (hkind : op.kind ∈ Token.operators)
      (h : operand.IsPlain) : IsPlain (unary op operand)
  | binary {op : Token} {left right : Expr} (hop : op.IsPlain)
      (hkind : op.kind ∈ Token.operators) (hleft : left.IsPlain) (hright : right.IsPlain) :
      IsPlain (binary op left right)
  | var {name : Token} (hname : name.IsPlain) (hkind : name.kind = .identifier) :
      IsPlain (var name)
  | assign {name : Token} {value : Expr} (hname : name.IsPlain)
      (hkind : name.kind = .identifier) (h : value.IsPlain) : IsPlain (assign name value)

inductive Stmt.IsPlain : Stmt → Prop
  | expression {e : Expr} (h : e.IsPlain) : IsPlain (expression e)
  | print {keyword : Token} {e : Expr} (hkeyword : keyword.IsPlain)
      (hkind : keyword.kind = .keyword .printWord) (h : e.IsPlain) : IsPlain (print keyword e)
  | declare {name : Token} {initial : Option Expr} (hname : name.IsPlain)
      (hkind : name.kind = .identifier) (h : ∀ e ∈ initial, e.IsPlain) :
      IsPlain (declare name initial)
  | block {body : List Stmt} (h : ∀ s ∈ body, s.IsPlain) : IsPlain (block body)

/-! ## Bare words -/

theorem Form.isBare_head {head : String} (h : head ∈ ["group", "=", ";", "print", "var", "block"]) :
    IsBare head.toList := by
  simp only [List.mem_cons, List.not_mem_nil, or_false] at h
  rcases h with rfl | rfl | rfl | rfl | rfl | rfl <;> exact ⟨by simp, by simp [isSeparator]⟩

theorem Expr.IsPlain.hasBareWords {e : Expr} (h : e.IsPlain) : e.form.HasBareWords := by
  induction h with
  | literal h => exact h.isBare_text
  | group _ ih => exact ⟨Form.isBare_head (by simp), ih, trivial⟩
  | unary hop hkind _ ih => exact ⟨hop.isBare_operator hkind, ih, trivial⟩
  | binary hop hkind _ _ ihl ihr => exact ⟨hop.isBare_operator hkind, ihl, ihr, trivial⟩
  | var hname hkind => exact hname.isBare_name hkind
  | assign hname hkind _ ih =>
      exact ⟨Form.isBare_head (by simp), hname.isBare_name hkind, ih, trivial⟩

theorem Form.haveBareWords_formsOfAll {body : List Stmt}
    (h : ∀ s ∈ body, s.form.HasBareWords) : HaveBareWords (Stmt.formsOfAll body) := by
  induction body with
  | nil => trivial
  | cons s rest ih =>
      obtain ⟨hs, hrest⟩ := List.forall_mem_cons.mp h
      exact ⟨hs, ih hrest⟩

theorem Stmt.IsPlain.hasBareWords {s : Stmt} (h : s.IsPlain) : s.form.HasBareWords := by
  induction h with
  | expression h => exact ⟨Form.isBare_head (by simp), h.hasBareWords, trivial⟩
  | print _ _ h => exact ⟨Form.isBare_head (by simp), h.hasBareWords, trivial⟩
  | @declare name initial hname hkind h =>
      cases initial with
      | none => exact ⟨Form.isBare_head (by simp), hname.isBare_name hkind, trivial⟩
      | some e =>
          exact ⟨Form.isBare_head (by simp), hname.isBare_name hkind, (h e rfl).hasBareWords,
            trivial⟩
  | block _ ih => exact ⟨Form.isBare_head (by simp), Form.haveBareWords_formsOfAll ih⟩

/-! ## Forms say the tree -/

theorem Expr.IsPlain.reline_eq {a b : Expr} (ha : a.IsPlain) (hb : b.IsPlain)
    (h : a.form = b.form) : a.reline (fun _ ↦ 0) = b.reline fun _ ↦ 0 := by
  -- Words and lists differ, and so do lists of one and of two items. Where the items do not tell
  -- two trees apart, the heads do: no operator is `group` or `=`.
  induction ha generalizing b with
  | @literal value hvalue =>
      cases hb with
      | literal hvalue' =>
          have htext := String.toList_inj.mp (Form.word.inj h)
          rw [hvalue.eq_of_text_eq hvalue' htext]
      | var hname hkind => exact absurd (Form.word.inj h) (hvalue.text_ne_name hname hkind)
      | group | unary | binary | assign => simp [form] at h
  | @group inner hinner ih =>
      cases hb with
      | group hinner' =>
          obtain ⟨-, hitems⟩ := Form.list.inj h
          rw [reline, reline, ih hinner' (List.cons.inj hitems).1]
      | unary hop hkind _ =>
          exact absurd (Form.list.inj h).1.symm (hop.operator_ne hkind).1
      | literal | binary | var | assign => simp [form] at h
  | @unary op operand hop hkind hoperand ih =>
      cases hb with
      | unary hop' hkind' hoperand' =>
          obtain ⟨hhead, hitems⟩ := Form.list.inj h
          rw [reline, reline, hop.reline_eq hop' (String.toList_inj.mp hhead),
            ih hoperand' (List.cons.inj hitems).1]
      | group => exact absurd (Form.list.inj h).1 (hop.operator_ne hkind).1
      | literal | binary | var | assign => simp [form] at h
  | @binary op left right hop hkind hleft hright ihl ihr =>
      cases hb with
      | binary hop' hkind' hleft' hright' =>
          obtain ⟨hhead, hitems⟩ := Form.list.inj h
          obtain ⟨hl, hr⟩ := List.cons.inj hitems
          rw [reline, reline, hop.reline_eq hop' (String.toList_inj.mp hhead), ihl hleft' hl,
            ihr hright' (List.cons.inj hr).1]
      | assign => exact absurd (Form.list.inj h).1 (hop.operator_ne hkind).2
      | literal | group | unary | var => simp [form] at h
  | var hname hkind =>
      cases hb with
      | literal hvalue =>
          exact absurd (Form.word.inj h).symm (hvalue.text_ne_name hname hkind)
      | var hname' _ =>
          rw [reline, reline, hname.reline_eq hname' (String.toList_inj.mp (Form.word.inj h))]
      | group | unary | binary | assign => simp [form] at h
  | @assign name value hname hkind hvalue ih =>
      cases hb with
      | binary hop hkind' _ _ =>
          exact absurd (Form.list.inj h).1.symm (hop.operator_ne hkind').2
      | assign hname' _ hvalue' =>
          obtain ⟨-, hitems⟩ := Form.list.inj h
          obtain ⟨hword, hrest⟩ := List.cons.inj hitems
          rw [reline, reline,
            hname.reline_eq hname' (String.toList_inj.mp (Form.word.inj hword)),
            ih hvalue' (List.cons.inj hrest).1]
      | literal | group | unary | var => simp [form] at h

theorem map_eq_map_of_imp {α β γ : Type} {f : α → β} {g : α → γ} {p q : List α}
    (h : ∀ s ∈ p, ∀ t ∈ q, f s = f t → g s = g t) (hmap : p.map f = q.map f) :
    p.map g = q.map g := by
  induction p generalizing q with
  | nil =>
      rw [List.map_nil, eq_comm, List.map_eq_nil_iff] at hmap
      rw [hmap, List.map_nil]
  | cons s p ih =>
      cases q with
      | nil => cases hmap
      | cons t q =>
          obtain ⟨hfirst, hrest⟩ := List.cons.inj hmap
          rw [List.forall_mem_cons] at h
          have hlater := ih (fun s hs t ht ↦ h.2 s hs t (List.mem_cons_of_mem _ ht)) hrest
          rw [List.map_cons, List.map_cons, h.1 t List.mem_cons_self hfirst, hlater]

theorem Stmt.IsPlain.reline_eq {s t : Stmt} (hs : s.IsPlain) (ht : t.IsPlain)
    (h : s.form = t.form) : s.reline (fun _ ↦ 0) = t.reline fun _ ↦ 0 := by
  induction hs generalizing t with
  | expression he =>
      cases ht with
      | expression he' =>
          rw [reline, reline, he.reline_eq he' (List.cons.inj (Form.list.inj h).2).1]
      | print | block => simp [form] at h
      | @declare name initial => cases initial <;> simp [form] at h
  | print hkeyword hkind he =>
      cases ht with
      | print hkeyword' hkind' he' =>
          -- The form does not show the keyword token, but its kind gives the lexeme.
          have hlexeme := (hkeyword.lexeme_of_keyword hkind).trans
            (hkeyword'.lexeme_of_keyword hkind').symm
          rw [reline, reline, hkeyword.reline_eq hkeyword' hlexeme,
            he.reline_eq he' (List.cons.inj (Form.list.inj h).2).1]
      | expression | block => simp [form] at h
      | @declare name initial => cases initial <;> simp [form] at h
  | @declare name initial hname hkind hinitial =>
      cases ht with
      | @declare name' initial' hname' _ hinitial' =>
          cases initial with
          | none =>
              cases initial' with
              | none =>
                  obtain ⟨hword, -⟩ := List.cons.inj (Form.list.inj h).2
                  rw [reline, reline,
                    hname.reline_eq hname' (String.toList_inj.mp (Form.word.inj hword))]
              | some e => simp [form] at h
          | some e =>
              cases initial' with
              | none => simp [form] at h
              | some e' =>
                  obtain ⟨hword, hrest⟩ := List.cons.inj (Form.list.inj h).2
                  have he := (hinitial e rfl).reline_eq (hinitial' e' rfl) (List.cons.inj hrest).1
                  rw [reline, reline,
                    hname.reline_eq hname' (String.toList_inj.mp (Form.word.inj hword)),
                    Option.map_some, Option.map_some, he]
      | expression | print | block => cases initial <;> simp [form] at h
  | block hbody ih =>
      cases ht with
      | block hbody' =>
          have hforms := (Form.list.inj h).2
          rw [formsOfAll_eq_map, formsOfAll_eq_map] at hforms
          have hall := map_eq_map_of_imp (fun s hs t ht ↦ ih s hs (hbody' t ht)) hforms
          rw [reline, reline, relineAll_eq_map, relineAll_eq_map, hall]
      | expression | print => simp [form] at h
      | @declare name initial => cases initial <;> simp [form] at h

theorem Stmt.IsPlain.reline_eq_of_dump_eq {s t : Stmt} (hs : s.IsPlain) (ht : t.IsPlain)
    (h : s.dump = t.dump) : s.reline (fun _ ↦ 0) = t.reline fun _ ↦ 0 := by
  apply hs.reline_eq ht
  apply Form.text_injective hs.hasBareWords ht.hasBareWords
  rw [← s.toList_dump, ← t.toList_dump, h]

/-! ## Trees that are read -/

theorem Kind.mem_operators {kind : Kind} {level : Nat} (h : kind ∈ operatorsAt level) :
    kind ∈ Token.operators := by
  obtain ⟨hlevel, hprecedence⟩ := mem_operatorsAt_iff.mp h
  cases kind <;> simp_all [precedence, Token.operators]

theorem Token.Denotes.isPlain {token : Token} {e : Expr} (h : token.Denotes e)
    (htoken : token.IsPlain) : e.IsPlain := by
  cases h with
  | yes => exact .literal (.boolean true)
  | no => exact .literal (.boolean false)
  | nothing => exact .literal .nil
  | constant value _ hvalue =>
      obtain ⟨x, rfl, hfinite, hsign⟩ := htoken.exists_number hvalue
      exact .literal (.number hfinite hsign)
  | name hkind => exact .var htoken hkind

theorem Phrase.isPlain_expr {n : Nat} (d : Phrase n) (h : ∀ token ∈ d.tokens, token.IsPlain) :
    d.expr.IsPlain := by
  induction d with
  | assignment name equals value ih =>
      rw [tokens, List.forall_mem_cons, List.forall_mem_cons] at h
      exact .assign h.1 name.2 (ih h.2.2)
  | chain left op right ihl ihr =>
      rw [tokens, List.forall_mem_append, List.forall_mem_cons] at h
      exact .binary h.2.1 (Kind.mem_operators op.2) (ihl h.1) (ihr h.2.2)
  | unary op operand ih =>
      rw [tokens, List.forall_mem_cons] at h
      have hkind : op.1.kind ∈ Token.operators := by
        rcases op.2 with hop | hop <;> simp [hop, Token.operators]
      exact .unary h.1 hkind (ih h.2)
  | group opening inner closing ih =>
      rw [tokens, List.forall_mem_cons, List.forall_mem_append] at h
      exact .group (ih h.2.1)
  | atom token hdenotes => exact hdenotes.isPlain (h token List.mem_cons_self)
  | tighter phrase ih => exact ih h

namespace Declaration

mutual

theorem isPlain_stmt (d : Declaration) (h : ∀ token ∈ d.tokens, token.IsPlain) :
    d.stmt.IsPlain := by
  match d with
  | .bare word name semicolon =>
      rw [tokens, List.forall_mem_cons, List.forall_mem_cons] at h
      exact .declare h.2.1 name.2 nofun
  | .initialized word name equals initial semicolon =>
      rw [tokens, List.forall_mem_cons, List.forall_mem_cons, List.forall_mem_cons,
        List.forall_mem_append] at h
      refine .declare h.2.1 name.2 ?_
      rintro _ ⟨⟩
      exact initial.isPlain_expr h.2.2.2.1
  | .print word value semicolon =>
      rw [tokens, List.forall_mem_cons, List.forall_mem_append] at h
      exact .print h.1 word.2 (value.isPlain_expr h.2.1)
  | .block opening body closing =>
      rw [tokens, List.forall_mem_cons, List.forall_mem_append] at h
      exact .block (isPlain_stmtsOfAll body h.2.1)
  | .expression value semicolon =>
      rw [tokens, List.forall_mem_append] at h
      exact .expression (value.isPlain_expr h.1)

theorem isPlain_stmtsOfAll (p : List Declaration) (h : ∀ token ∈ tokensOfAll p, token.IsPlain) :
    ∀ s ∈ stmtsOfAll p, s.IsPlain := by
  match p with
  | [] => nofun
  | d :: rest =>
      rw [tokensOfAll, List.forall_mem_append] at h
      rw [stmtsOfAll, List.forall_mem_cons]
      exact ⟨isPlain_stmt d h.1, isPlain_stmtsOfAll rest h.2⟩

end

end Declaration

/-! ## Programs that are read -/

/-- No token is a string or an infinite number. -/
def Scan.IsPlain (scan : Scan) : Prop :=
  ∀ token ∈ scan.tokens,
    token.kind ≠ .string ∧ ∀ x, token.literal = some (.number x) → x.isInf = false

theorem Number.ofDecimal_finite {whole fraction : List Char}
    (h : (ofDecimal whole fraction).isInf = false) :
    code (ofDecimal whole fraction) < infinityCode ∧
      isNegative (ofDecimal whole fraction) = false := by
  rw [ofDecimal] at h ⊢
  have hle := nearest_le_infinityCode (ofDigits (whole ++ fraction)) (tenPow fraction.length)
  refine ⟨?_, isNegative_ofCode hle⟩
  rw [code_ofCode hle]
  refine Nat.lt_of_le_of_ne hle ?_
  intro heq
  rw [heq, isInf_infinity] at h
  cases h

theorem Scan.IsPlain.isPlain_of_mem {source : String} {token : Token}
    (h : (Scan.ofSource source).IsPlain) (hmem : token ∈ wordsOf source) : token.IsPlain := by
  have htokens : token ∈ (Scan.ofSource source).tokens := by
    rw [ofSource, tokens_ofText]
    exact List.mem_append_left _ hmem
  obtain ⟨hstring, hfinite⟩ := h token htokens
  obtain ⟨piece, hlexeme, line, htoken⟩ := exists_lexeme_of_mem hmem
  refine ⟨⟨piece, hlexeme, line, htoken⟩, hstring, ?_⟩
  intro x hx
  have hinf := hfinite x hx
  rw [Piece.token?] at htoken
  split at htoken <;> cases htoken <;> cases hx
  exact Number.ofDecimal_finite hinf

theorem isPlain_of_programOf {source : String} {program : List Stmt}
    (h : programOf source = .ok program) (hplain : (Scan.ofSource source).IsPlain) :
    ∀ s ∈ program, s.IsPlain := by
  obtain ⟨-, p, htokens, rfl⟩ := programOf_eq_ok_iff_derivation.mp h
  apply Declaration.isPlain_stmtsOfAll
  rw [htokens]
  exact fun token htoken ↦ hplain.isPlain_of_mem htoken

/-- Two sources without strings and infinite numbers whose statements are dumped alike have the same
statements, but for the lines of their tokens. -/
theorem relineAll_eq_of_dump_eq {a b : String} {p q : List Stmt} (hp : programOf a = .ok p)
    (hq : programOf b = .ok q) (ha : (Scan.ofSource a).IsPlain) (hb : (Scan.ofSource b).IsPlain)
    (h : p.map Stmt.dump = q.map Stmt.dump) :
    Stmt.relineAll (fun _ ↦ 0) p = Stmt.relineAll (fun _ ↦ 0) q := by
  have hpplain := isPlain_of_programOf hp ha
  have hqplain := isPlain_of_programOf hq hb
  rw [Stmt.relineAll_eq_map, Stmt.relineAll_eq_map]
  exact map_eq_map_of_imp
    (fun s hs t ht ↦ (hpplain s hs).reline_eq_of_dump_eq (hqplain t ht)) h

/-- The same difference, written with other spaces and with a decimal point. -/
theorem relineAll_eq_of_dump_difference :
    ∃ p q, programOf "print a - 1;" = .ok p ∧ programOf "print\na-1.0;" = .ok q ∧
      (Scan.ofSource "print a - 1;").IsPlain ∧ (Scan.ofSource "print\na-1.0;").IsPlain ∧
      p.map Stmt.dump = q.map Stmt.dump ∧
      Stmt.relineAll (fun _ ↦ 0) p = Stmt.relineAll (fun _ ↦ 0) q := by
  have hp : programOf "print a - 1;" = .ok [.print (.plain (.keyword .printWord) "print" 1)
      (.binary (.plain .minus "-" 1) (.var (.plain .identifier "a" 1))
        (.literal (.number (Number.ofDecimal ['1'] []))))] := by
    with_unfolding_all rfl
  have hq : programOf "print\na-1.0;" = .ok [.print (.plain (.keyword .printWord) "print" 1)
      (.binary (.plain .minus "-" 2) (.var (.plain .identifier "a" 2))
        (.literal (.number (Number.ofDecimal ['1'] ['0']))))] := by
    with_unfolding_all rfl
  have hone : Number.ofDecimal ['1'] ['0'] = Number.ofDecimal ['1'] [] := by
    have hnearest : Number.nearest 10 10 = Number.nearest 1 1 := by decide +kernel
    exact congrArg Number.ofCode hnearest
  have hfinite : (Number.ofDecimal ['1'] []).isInf = false := by decide +kernel
  have ha : (Scan.ofSource "print a - 1;").IsPlain := by
    have htokens : (Scan.ofSource "print a - 1;").tokens =
        [.plain (.keyword .printWord) "print" 1, .plain .identifier "a" 1, .plain .minus "-" 1,
          ⟨.number, "1", some (.number (Number.ofDecimal ['1'] [])), 1⟩,
          .plain .semicolon ";" 1, .endOfInput 1] := by
      with_unfolding_all rfl
    rw [Scan.IsPlain, htokens]
    simp [Token.endOfInput, Token.plain, hfinite]
  have hb : (Scan.ofSource "print\na-1.0;").IsPlain := by
    have htokens : (Scan.ofSource "print\na-1.0;").tokens =
        [.plain (.keyword .printWord) "print" 1, .plain .identifier "a" 2, .plain .minus "-" 2,
          ⟨.number, "1.0", some (.number (Number.ofDecimal ['1'] ['0'])), 2⟩,
          .plain .semicolon ";" 2, .endOfInput 2] := by
      with_unfolding_all rfl
    rw [Scan.IsPlain, htokens]
    simp [Token.endOfInput, Token.plain, hone, hfinite]
  refine ⟨_, _, hp, hq, ha, hb, ?_, relineAll_eq_of_dump_eq hp hq ha hb ?_⟩ <;>
    simp [Token.plain, hone]

end Lox
