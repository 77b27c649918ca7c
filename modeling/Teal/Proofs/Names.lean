import Mathlib.Logic.Basic
import Teal.Compile
import Teal.Expr.Parser

/-!
# Names in programs

The name of a definition is a token of the source text. No such token has a colon in it, so no
definition has a name that the closures of a program could have.

## Main definitions

* `Token.Proper`: a name token is made of the characters of names.
* `Parser.Forward`, `Parser.Roots`: what readers leave, and how definitions are named.
* `Function.Named`: a function is named without a colon.

## Main statements

* `TokenStream.proper_lex`: the tokens of a text are proper.
* `Parser.roots_operand`: operands leave the end of their tokens, which name their definitions.
* `named_of_parse`: the definitions of a program that was read are named without colons.
-/

namespace Teal

/-! ## Tokens -/

def Token.Proper (t : Token) : Prop :=
  t.kind = .name → ∀ c ∈ t.value.toList, Lexeme.isNamePart c

namespace Lexeme

theorem isNamePart_of_isNameStart {c : Char} (h : isNameStart c) : isNamePart c := by
  simp only [isNameStart, Bool.or_eq_true, decide_eq_true_eq] at h
  rcases h with h | rfl
  · have halpha : c.isAlpha = true := by
      change (c.isUpper || c.isLower) = true
      rw [h, Bool.or_true]
    simp [isNamePart, Char.isAlphanum, halpha]
  · decide

theorem ofMark?_ne_name (c : Char) : Token.Kind.ofMark? c ≠ some .name := by
  unfold Token.Kind.ofMark?
  split <;> simp

theorem readMark_ne_name {c : Char} {rest value : List Char} {n : Nat} :
    readMark c rest ≠ .token .name value n := by
  unfold readMark
  split
  · simp [verbatim]
  · simp [verbatim]
  · simp [verbatim]
  · split
    · next kind hkind =>
      intro h
      simp only [verbatim, token.injEq] at h
      exact ofMark?_ne_name c (h.1 ▸ hkind)
    · simp

/-- The only lexemes that are names are words. -/
theorem isNamePart_of_read {afterOperand : Bool} {c : Char} {rest value : List Char} {n : Nat}
    (h : read afterOperand c rest = .token .name value n) : ∀ x ∈ value, isNamePart x := by
  unfold read at h
  rcases ite_eq_iff.mp h with ⟨-, h⟩ | ⟨-, h⟩
  · cases h
  rcases ite_eq_iff.mp h with ⟨-, h⟩ | ⟨-, h⟩
  · cases h
  rcases ite_eq_iff.mp h with ⟨-, h⟩ | ⟨-, h⟩
  · unfold readComment at h
    split at h <;> cases h
  rcases ite_eq_iff.mp h with ⟨-, h⟩ | ⟨-, h⟩
  · unfold readTag at h
    dsimp only at h
    split at h <;> cases h
  rcases ite_eq_iff.mp h with ⟨-, h⟩ | ⟨-, h⟩
  · cases h
  rcases ite_eq_iff.mp h with ⟨hstart, h⟩ | ⟨-, h⟩
  · simp only [verbatim, token.injEq] at h
    obtain ⟨-, rfl, -⟩ := h
    intro x hx
    rcases List.mem_cons.mp hx with rfl | hx
    · exact isNamePart_of_isNameStart hstart
    · exact List.all_eq_true.mp List.all_takeWhile x hx
  rcases ite_eq_iff.mp h with ⟨-, h⟩ | ⟨-, h⟩
  · cases h
  rcases ite_eq_iff.mp h with ⟨-, h⟩ | ⟨-, h⟩
  · cases h
  rcases ite_eq_iff.mp h with ⟨-, h⟩ | ⟨-, h⟩
  · cases h
  rcases ite_eq_iff.mp h with ⟨-, h⟩ | ⟨-, h⟩
  · unfold readString at h
    split at h <;> cases h
  rcases ite_eq_iff.mp h with ⟨-, h⟩ | ⟨-, h⟩
  · cases h
  · exact absurd h readMark_ne_name

end Lexeme

namespace Token

theorem proper_scanFrom (skip : Nat) (afterOperand : Bool) (cursor : Cursor) (text : List Char) :
    ∀ t ∈ (scanFrom skip afterOperand cursor text).1, t.Proper := by
  fun_induction scanFrom skip afterOperand cursor text with
  | case1 => simp
  | case2 _ _ _ _ _ ih => exact ih
  | case3 _ _ _ _ _ _ ih => exact ih
  | case4 afterOperand cursor c rest kind value length hread tokens fault hscan ih =>
    intro t ht
    rcases List.mem_cons.mp ht with rfl | ht
    · intro hkind
      simp only at hkind
      subst hkind
      simpa using Lexeme.isNamePart_of_read hread
    · exact ih t (by rw [hscan]; exact ht)
  | case5 => simp

/-- A token that is written for a token is that token or its terminator. -/
theorem eq_or_eq_of_mem_terminated {last : Option Kind} {token t : Token} {next : Kind}
    (h : t ∈ terminated last token next) : t = token ∨ t = token.separator := by
  have hkept : ∀ t ∈ kept last token, t = token := by
    intro t ht
    unfold kept at ht
    split at ht
    · simp at ht
    · split at ht <;> simp_all
    · simpa using ht
  simp only [terminated] at h
  split at h
  · rcases List.mem_append.mp h with h | h
    · exact .inl (hkept t h)
    · exact .inr (List.mem_singleton.mp h)
  · exact .inl (hkept t h)

/-- The terminator pass writes the tokens it was given, and terminators of them. -/
theorem exists_of_mem_terminateFrom {fails : Bool} {last : Option Kind} {tokens : List Token}
    {t : Token} (h : t ∈ terminateFrom fails last tokens) :
    ∃ u ∈ tokens, t = u ∨ t = u.separator := by
  fun_induction terminateFrom fails last tokens with
  | case1 => simp at h
  | case2 => simp at h
  | case3 last token hfails => exact ⟨token, by simp, eq_or_eq_of_mem_terminated h⟩
  | case4 last token next rest written ih =>
    rcases List.mem_append.mp h with h | h
    · exact ⟨token, by simp, eq_or_eq_of_mem_terminated h⟩
    · obtain ⟨u, hu, ht⟩ := ih h
      exact ⟨u, List.mem_cons_of_mem _ hu, ht⟩

/-- The terminator pass makes no names. -/
theorem mem_of_mem_terminateFrom {fails : Bool} {last : Option Kind} {tokens : List Token}
    {t : Token} (h : t ∈ terminateFrom fails last tokens) (hname : t.kind = .name) :
    t ∈ tokens := by
  obtain ⟨u, hu, rfl | rfl⟩ := exists_of_mem_terminateFrom h
  · exact hu
  · cases hname

end Token

theorem TokenStream.proper_lex (source : Source) : ∀ t ∈ source.lex.terminate.tokens, t.Proper := by
  intro t ht hname
  have hmem := Token.mem_of_mem_terminateFrom ht hname
  exact Token.proper_scanFrom _ _ _ _ t hmem hname

/-! ## Readers -/

namespace Parser

/-- What a reader gives has a property, if it gives something. -/
def Yields (P : α → Prop) : Except ParseError α → Prop
  | .ok a => P a
  | .error _ => True

def Forward (r : Reader α) : Prop :=
  ∀ tokens, Yields (fun p => p.2 <:+ tokens) (r tokens)

theorem Yields.bind {P : α → Prop} {Q : β → Prop} {x : Except ParseError α}
    {f : α → Except ParseError β} (h : Yields P x) (hf : ∀ a, P a → Yields Q (f a)) :
    Yields Q (x >>= f) := by
  cases x with
  | error e => trivial
  | ok a => exact hf a h

theorem Yields.of_ok {P : α → Prop} {x : Except ParseError α} {a : α} (h : Yields P x)
    (hx : x = .ok a) : P a := by
  subst hx
  exact h

theorem Yields.mono {P Q : α → Prop} {x : Except ParseError α} (h : Yields P x)
    (hpq : ∀ a, P a → Q a) : Yields Q x := by
  cases x with
  | error e => trivial
  | ok a => exact hpq a h

theorem Yields.map {P : β → Prop} {f : α → β} {x : Except ParseError α}
    (h : Yields (fun a => P (f a)) x) : Yields P (x.map f) := by
  cases x with
  | error e => trivial
  | ok a => exact h

section Forward

variable {ctx : Context} {operand : Reader Expr}

theorem suffix_skip (tokens : List Token) : skipTerminators tokens <:+ tokens :=
  List.dropWhile_suffix _

theorem suffix_eat {kind : Token.Kind} {tokens rest : List Token}
    (h : eat? kind tokens = some rest) : rest <:+ tokens := by
  cases tokens with
  | nil => cases h
  | cons token others =>
    simp only [eat?] at h
    split at h
    · cases h
      exact List.suffix_cons _ _
    · cases h

theorem reads_expect (kind : Token.Kind) (expected : String) (tokens : List Token) :
    Yields (fun p => p.2 <:+ tokens ∧ p.1 ∈ tokens ∧ p.1.kind = kind)
      (expect ctx kind expected tokens) := by
  cases tokens with
  | nil => trivial
  | cons token rest =>
    simp only [expect]
    split
    · next h => exact ⟨List.suffix_cons _ _, List.mem_cons_self, h⟩
    · trivial

theorem forward_expect (kind : Token.Kind) (expected : String) :
    Forward (expect ctx kind expected) :=
  fun tokens => (reads_expect kind expected tokens).mono fun _ h => h.1

theorem closeAll_function? (w : Waiting) (waiting : List Waiting) (e : Expr) :
    (Waiting.closeAll (w :: waiting) e).function? = none := by
  induction waiting generalizing w e with
  | nil => rfl
  | cons w' rest ih => exact ih w' (w.close e)

theorem push_ne_nil {op : BinaryOp} {waiting waiting' : List Waiting} {e : Expr}
    (h : Waiting.push op waiting e = some waiting') : waiting' ≠ [] := by
  fun_induction Waiting.push op waiting e with
  | case1 => cases h; simp
  | case2 _ _ _ _ ih => exact ih h
  | case3 => cases h; simp
  | case4 _ _ _ _ _ _ ih => exact ih h
  | case5 => cases h; simp
  | case6 => cases h

/-- A chain that goes on after its first operand is no definition. -/
theorem reads_chain (hop : Forward operand) (fuel : Nat) (waiting : List Waiting) (left : Expr)
    (tokens : List Token) :
    Yields (fun p => p.2 <:+ tokens ∧ (p.1.function? = none ∨ waiting = [] ∧ p.1 = left))
      (chain ctx operand fuel waiting left tokens) := by
  have hclosed : (Waiting.closeAll waiting left).function? = none ∨
      waiting = [] ∧ Waiting.closeAll waiting left = left := by
    cases waiting with
    | nil => exact .inr ⟨rfl, rfl⟩
    | cons w rest => exact .inl (closeAll_function? w rest left)
  induction fuel generalizing waiting left tokens with
  | zero => exact ⟨List.suffix_refl _, hclosed⟩
  | succ fuel ih =>
    cases tokens with
    | nil => exact ⟨List.suffix_refl _, hclosed⟩
    | cons token rest =>
      simp only [chain, chainRound]
      split
      · exact ⟨List.suffix_refl _, hclosed⟩
      · split
        · trivial
        · next waiting' hpush =>
          obtain ⟨w, ws, rfl⟩ := List.exists_cons_of_ne_nil (push_ne_nil hpush)
          refine .bind (hop rest) fun ⟨right, last⟩ hlast => ?_
          refine (ih _ _ _ (.inl (closeAll_function? w ws right))).mono fun p hp => ?_
          refine ⟨hp.1.trans (hlast.trans (List.suffix_cons _ _)), .inl ?_⟩
          simpa using hp.2

theorem forward_expression (hop : Forward operand) : Forward (expression ctx operand) := by
  intro tokens
  refine .bind (hop tokens) fun ⟨left, rest⟩ hrest => ?_
  exact (reads_chain hop _ _ _ _).mono fun _ h => h.1.trans hrest

theorem forward_separated {close : Token.Kind} {expected : String} {item : List α → Reader α}
    (hitem : ∀ items, Forward (item items)) (fuel : Nat) (items : List α) :
    Forward (separated ctx close expected item fuel items) := by
  induction fuel generalizing items with
  | zero => exact fun _ => trivial
  | succ fuel ih =>
    intro tokens
    have hskip := suffix_skip tokens
    simp only [separated, separatedRound]
    split
    · next rest heat => exact (suffix_eat heat).trans hskip
    · refine .bind (hitem items _) fun ⟨x, rest⟩ hrest => ?_
      have hrest := (suffix_skip rest).trans (hrest.trans hskip)
      dsimp only
      split
      · next rest' heat =>
        exact (ih _ _).mono fun _ h => h.trans ((suffix_eat heat).trans hrest)
      · exact .bind (forward_expect close expected _) fun ⟨_, _⟩ h => h.trans hrest

theorem forward_delimited {close : Token.Kind} {expected : String} {item : List α → Reader α}
    (hitem : ∀ items, Forward (item items)) : Forward (delimited ctx close expected item) :=
  fun tokens => forward_separated hitem _ _ tokens

theorem forward_parameter (seen : List String) : Forward (parameter ctx seen) := by
  intro tokens
  refine .bind (forward_expect _ _ tokens) fun ⟨token, rest⟩ hrest => ?_
  dsimp only
  split
  · trivial
  · exact hrest

theorem forward_parameters : Forward (parameters ctx) := by
  intro tokens
  refine .bind (forward_expect _ _ tokens) fun ⟨_, rest⟩ hrest => ?_
  exact (forward_delimited forward_parameter rest).mono fun _ h => h.trans hrest

theorem forward_argument (hop : Forward operand) : Forward (argument ctx operand) := by
  intro tokens
  have hexpression : Forward (expression ctx operand) := forward_expression hop
  cases tokens with
  | nil => exact .bind (hexpression _) fun ⟨_, _⟩ h => h
  | cons token rest =>
    simp only [argument]
    split
    · exact .bind (hexpression _) fun ⟨_, _⟩ h => h.trans (List.suffix_cons _ _)
    · exact .bind (hexpression _) fun ⟨_, _⟩ h => h

theorem forward_pair (hop : Forward operand) : Forward (pair ctx operand) := by
  intro tokens
  refine .bind (forward_expression hop tokens) fun ⟨key, rest⟩ hrest => ?_
  refine .bind (forward_expect _ _ _) fun ⟨_, rest'⟩ hrest' => ?_
  refine .bind (forward_expression hop _) fun ⟨value, last⟩ hlast => ?_
  exact hlast.trans ((suffix_skip _).trans (hrest'.trans ((suffix_skip _).trans hrest)))

theorem suffix_endItem (tokens : List Token) :
    Yields (fun rest => rest <:+ tokens) (endItem ctx tokens) := by
  unfold endItem
  split
  · exact List.suffix_refl _
  · exact .map (forward_expect _ _ tokens)

theorem forward_blockItems (hop : Forward operand) (fuel : Nat) :
    Forward (blockItems ctx operand fuel) := by
  induction fuel with
  | zero => exact fun _ => trivial
  | succ fuel ih =>
    intro tokens
    have hskip := suffix_skip tokens
    simp only [blockItems, blockRound]
    split
    · trivial
    · next token rest heq =>
      rw [heq] at hskip
      split
      · exact (List.suffix_cons _ _).trans hskip
      · refine .bind (forward_expression hop _) fun ⟨item, rest⟩ hrest => ?_
        refine .bind (suffix_endItem rest) fun rest' hrest' => ?_
        refine .bind (ih rest') fun ⟨items, last⟩ hlast => ?_
        exact hlast.trans (hrest'.trans (hrest.trans hskip))

theorem forward_block (hop : Forward operand) : Forward (block ctx operand) := by
  intro tokens
  refine .bind (forward_expect _ _ tokens) fun ⟨brace, rest⟩ hrest => ?_
  refine .bind (forward_blockItems hop _ _) fun ⟨items, last⟩ hlast => ?_
  dsimp only
  split
  · trivial
  · exact hlast.trans hrest

theorem suffix_joinBranches (tokens : List Token) : joinBranches tokens <:+ tokens := by
  unfold joinBranches
  split
  · split
    · exact List.suffix_cons _ _
    · exact List.suffix_refl _
  · exact List.suffix_refl _

theorem suffix_endExpression (tokens : List Token) :
    Yields (fun rest => rest <:+ tokens) (endExpression ctx tokens) := by
  cases tokens with
  | nil => exact List.suffix_refl _
  | cons token rest =>
    simp only [endExpression]
    split
    · exact List.suffix_cons _ _
    · trivial

/-! ## Definitions -/

/-- If an expression is a definition, its name is a name token. -/
def Rooted (tokens : List Token) (e : Expr) : Prop :=
  ∀ f, e.function? = some f → ∃ t ∈ tokens, t.kind = .name ∧ t.value = f.name

/-- A reader of expressions leaves the end of its tokens, and its definitions are named by them. -/
def Roots (r : Reader Expr) : Prop :=
  ∀ tokens, Yields (fun p => p.2 <:+ tokens ∧ Rooted tokens p.1) (r tokens)

theorem Rooted.of_none {tokens : List Token} {e : Expr} (h : e.function? = none) :
    Rooted tokens e := by
  intro f hf
  rw [h] at hf
  cases hf

theorem Rooted.mono {tokens rest : List Token} {e : Expr} (h : Rooted rest e)
    (hrest : rest <:+ tokens) : Rooted tokens e := by
  intro f hf
  obtain ⟨t, ht, hname⟩ := h f hf
  exact ⟨t, hrest.subset ht, hname⟩

theorem Roots.forward {r : Reader Expr} (h : Roots r) : Forward r :=
  fun tokens => (h tokens).mono fun _ hp => hp.1

theorem Roots.expression (hop : Roots operand) : Roots (expression ctx operand) := by
  intro tokens
  refine .bind (hop tokens) fun ⟨left, rest⟩ ⟨hrest, hleft⟩ => ?_
  refine (reads_chain hop.forward _ _ _ _).mono fun p ⟨hp, hroot⟩ => ⟨hp.trans hrest, ?_⟩
  rcases hroot with hnone | ⟨-, heq⟩
  · exact .of_none hnone
  · rw [heq]
    exact hleft

theorem roots_conditional (hop : Forward operand) (fuel : Nat) (word : Token) :
    Roots (conditional ctx operand fuel word) := by
  induction fuel generalizing word with
  | zero => exact fun _ => trivial
  | succ fuel ih =>
    intro tokens
    refine .bind (forward_expression hop tokens) fun ⟨condition, rest⟩ hrest => ?_
    refine .bind (forward_block hop rest) fun ⟨consequence, rest'⟩ hrest' => ?_
    have hjoin := (suffix_joinBranches rest').trans (hrest'.trans hrest)
    dsimp only
    split
    · exact ⟨List.nil_suffix, .of_none rfl⟩
    · next token others heq =>
      rw [heq] at hjoin
      have hothers := (List.suffix_cons _ _).trans hjoin
      split
      · exact .bind (ih token others) fun ⟨_, _⟩ h => ⟨h.1.trans hothers, .of_none rfl⟩
      · split
        · exact .bind (forward_block hop others) fun ⟨_, _⟩ h => ⟨h.trans hothers, .of_none rfl⟩
        · exact ⟨hjoin, .of_none rfl⟩

theorem roots_lambda (hop : Forward operand) (word : Token) :
    Roots (lambda ctx operand word) := by
  intro tokens
  refine .bind (forward_parameters tokens) fun ⟨params, rest⟩ hrest => ?_
  exact .bind (forward_block hop rest) fun ⟨_, _⟩ h => ⟨h.trans hrest, .of_none rfl⟩

theorem roots_nameOrCall (hop : Forward operand) (token : Token) :
    Roots (nameOrCall ctx operand token) := by
  intro tokens
  simp only [nameOrCall]
  split
  · exact ⟨List.suffix_refl _, .of_none rfl⟩
  · next rest heat =>
    refine .bind (forward_delimited (fun _ => forward_argument hop) rest) fun ⟨_, _⟩ h => ?_
    exact ⟨h.trans (suffix_eat heat), .of_none rfl⟩

theorem roots_listLiteral (hop : Forward operand) (bracket : Token) :
    Roots (listLiteral ctx operand bracket) := by
  intro tokens
  exact .bind (forward_delimited (fun _ => forward_expression hop) tokens) fun ⟨_, _⟩ h =>
    ⟨h, .of_none rfl⟩

theorem roots_hashLiteral (hop : Forward operand) (brace : Token) :
    Roots (hashLiteral ctx operand brace) := by
  intro tokens
  exact .bind (forward_delimited (fun _ => forward_pair hop) tokens) fun ⟨_, _⟩ h =>
    ⟨h, .of_none rfl⟩

theorem roots_number (token : Token) : Roots (number ctx token) := by
  intro tokens
  unfold number
  split
  · exact ⟨List.suffix_refl _, .of_none rfl⟩
  · trivial

theorem roots_definition (hop : Forward operand) (start : Token) (tag : Option String) :
    Roots (definition ctx operand start tag) := by
  intro tokens
  refine .bind (reads_expect _ _ tokens) fun ⟨name, rest⟩ ⟨hrest, hmem, hkind⟩ => ?_
  refine .bind (forward_parameters rest) fun ⟨params, rest'⟩ hrest' => ?_
  refine .bind (forward_block hop rest') fun ⟨body, last⟩ hlast => ?_
  refine ⟨hlast.trans (hrest'.trans hrest), fun f hf => ?_⟩
  cases hf
  exact ⟨name, hmem, hkind, rfl⟩

theorem roots_tagged (hop : Forward operand) (tag : Token) : Roots (tagged ctx operand tag) := by
  intro tokens
  refine .bind (forward_expect _ _ _) fun ⟨_, rest⟩ hrest => ?_
  have hrest := hrest.trans (suffix_skip tokens)
  exact (roots_definition hop _ _ rest).mono fun p hp => ⟨hp.1.trans hrest, hp.2.mono hrest⟩

theorem Roots.parenthesized (hop : Roots operand) : Roots (parenthesized ctx operand) := by
  intro tokens
  have hskip := suffix_skip tokens
  refine .bind (hop.expression _) fun ⟨inner, rest⟩ ⟨hrest, hroot⟩ => ?_
  refine .bind (forward_expect _ _ _) fun ⟨_, last⟩ hlast => ?_
  exact ⟨hlast.trans ((suffix_skip rest).trans (hrest.trans hskip)), hroot.mono hskip⟩

theorem Roots.form (hop : Roots operand) : Roots (form ctx operand) := by
  intro tokens
  cases tokens with
  | nil => trivial
  | cons token rest =>
    have hcons := List.suffix_cons token rest
    have after {r : Reader Expr} (hr : Roots r) :
        Yields (fun p => p.2 <:+ token :: rest ∧ Rooted (token :: rest) p.1) (r rest) :=
      (hr rest).mono fun p hp => ⟨hp.1.trans hcons, hp.2.mono hcons⟩
    have word (e : Expr) (h : e.function? = none) :
        Yields (fun p => p.2 <:+ token :: rest ∧ Rooted (token :: rest) p.1)
          (.ok (e, rest)) := ⟨hcons, .of_none h⟩
    simp only [Parser.form]
    split
    · exact .bind (hop.forward rest) fun ⟨_, _⟩ h => ⟨h.trans hcons, .of_none rfl⟩
    · exact .bind (hop.forward rest) fun ⟨_, _⟩ h => ⟨h.trans hcons, .of_none rfl⟩
    · exact after (roots_tagged hop.forward token)
    · exact after (roots_definition hop.forward token none)
    · exact after (roots_lambda hop.forward token)
    · exact after (roots_conditional hop.forward _ token)
    · exact after (roots_listLiteral hop.forward token)
    · exact after (roots_hashLiteral hop.forward token)
    · exact after hop.parenthesized
    · exact after (roots_nameOrCall hop.forward token)
    · exact after (roots_number token)
    · exact word _ rfl
    · exact word _ rfl
    · exact word _ rfl
    · exact word _ rfl
    · exact word _ rfl
    · trivial

end Forward

theorem roots_operand (ctx : Context) (depth : Nat) : Roots (operand ctx depth) := by
  induction depth with
  | zero => exact fun _ => trivial
  | succ depth ih => exact fun tokens => ih.form tokens

/-- The definitions of a program are named by name tokens. -/
theorem rooted_programFrom {ctx : Context} (fuel : Nat) (tokens : List Token) :
    Yields (fun program => ∀ e ∈ program, Rooted tokens e) (programFrom ctx fuel tokens) := by
  induction fuel generalizing tokens with
  | zero => trivial
  | succ fuel ih =>
    have hskip := suffix_skip tokens
    simp only [programFrom, programRound]
    split
    · split
      · trivial
      · simp [Yields]
    · next token rest heq =>
      rw [heq] at hskip
      refine .bind ((roots_operand ctx maxDepth).expression _) fun ⟨e, rest'⟩ ⟨hrest', he⟩ => ?_
      refine .bind (suffix_endExpression rest') fun last hlast => ?_
      refine .bind (ih last) fun others hothers => ?_
      have hlast := hlast.trans (hrest'.trans hskip)
      exact List.forall_mem_cons.mpr
        ⟨he.mono hskip, fun e' he' => (hothers e' he').mono hlast⟩

end Parser

def Function.Named (f : Function) : Prop :=
  ':' ∉ f.name.toList

/-- The definitions of a program that was read are named without colons. -/
theorem named_of_parse {source : Source} {program : List Expr} (h : source.parse = .ok program) :
    ∀ f ∈ program.filterMap Expr.function?, f.Named := by
  intro f hf hcolon
  obtain ⟨e, he, hf⟩ := List.mem_filterMap.mp hf
  obtain ⟨t, ht, hkind, hvalue⟩ := (Parser.rooted_programFrom _ _).of_ok h e he f hf
  rw [← hvalue] at hcolon
  exact absurd (TokenStream.proper_lex source t ht hkind ':' hcolon) (by decide)

end Teal
