import Teal.Proofs.Names

/-!
# What errors of the parser are about

A reader that fails says why and where. What it says is so: the token it did not expect is one of
those it was given, and the place it names is the place of such a token or the end of the text. The
text ends only if no error of the lexer ended the tokens before it; otherwise that error is given.

## Main definitions

* `ParseError.About`: an error is about tokens and what follows them.
* `Parser.Answers`: a reader leaves the end of its tokens, or fails with an error about them.

## Main statements

* `Parser.answers_operand`: the reader of operands, to any depth.
* `Source.about_of_parseStream`: every error of a source unit is about its tokens.
-/

namespace Teal

def ParseError.About (ctx : Parser.Context) (tokens : List Token) : ParseError → Prop
  | .lex error => ctx.failure = some error
  | .unexpectedToken _ found loc => found ∈ tokens ∧ loc = ctx.loc found
  | .unexpectedEnd _ loc => ctx.failure = none ∧ loc = ctx.locate ctx.endIndex
  | .invalid _ loc => (∃ t ∈ tokens, loc = ctx.loc t) ∨ loc = ctx.locate ctx.endIndex

namespace Parser

def Blames (ctx : Context) (tokens : List Token) (x : Except ParseError α) : Prop :=
  ∀ e, x = .error e → e.About ctx tokens

/-- A reader leaves the end of its tokens, or fails with an error about them. -/
structure Answers (ctx : Context) (r : Reader α) : Prop where
  forward : Forward r
  blames : ∀ tokens, Blames ctx tokens (r tokens)

variable {ctx : Context} {tokens rest : List Token}

theorem about_ended (expected : String) : (ctx.ended expected).About ctx tokens := by
  unfold Context.ended
  split
  · assumption
  · exact ⟨by assumption, rfl⟩

theorem about_unexpected {token : Token} (h : token ∈ tokens) (expected : String) :
    (ctx.unexpected token expected).About ctx tokens :=
  ⟨h, rfl⟩

theorem about_invalid {token : Token} (h : token ∈ tokens) (problem : ParseProblem) :
    (ctx.invalid token problem).About ctx tokens :=
  .inl ⟨token, h, rfl⟩

namespace Blames

theorem ok (a : α) : Blames ctx tokens (.ok a : Except ParseError α) := nofun

theorem error {e : ParseError} (h : e.About ctx tokens) :
    Blames ctx tokens (.error e : Except ParseError α) := by
  rintro _ ⟨⟩
  exact h

/-- An error about the end of the tokens is about the tokens. -/
theorem mono {x : Except ParseError α} (h : Blames ctx rest x) (hrest : rest <:+ tokens) :
    Blames ctx tokens x := by
  intro e he
  have habout := h e he
  cases e with
  | lex | unexpectedEnd => exact habout
  | unexpectedToken => exact ⟨hrest.subset habout.1, habout.2⟩
  | invalid =>
    refine habout.imp_left ?_
    rintro ⟨t, ht, hloc⟩
    exact ⟨t, hrest.subset ht, hloc⟩

theorem bind {P : α → Prop} {x : Except ParseError α} {k : α → Except ParseError β}
    (hx : Blames ctx tokens x) (hyields : Yields P x) (hk : ∀ a, P a → Blames ctx tokens (k a)) :
    Blames ctx tokens (x >>= k) := by
  cases x with
  | error e => exact error (hx e rfl)
  | ok a => exact hk a hyields

theorem map {x : Except ParseError α} (h : Blames ctx tokens x) (f : α → β) :
    Blames ctx tokens (x.map f) := by
  cases x with
  | error e => exact error (h e rfl)
  | ok a => exact ok (f a)

end Blames

/-- A reader of the end of the tokens, and what is done with what it reads. -/
theorem Answers.bind {r : Reader α} {k : Parsed α → Except ParseError β} (hr : Answers ctx r)
    (hrest : rest <:+ tokens)
    (hk : ∀ a last, last <:+ tokens → Blames ctx tokens (k (a, last))) :
    Blames ctx tokens (r rest >>= k) :=
  ((hr.blames rest).mono hrest).bind (hr.forward rest) fun p hp => hk p.1 p.2 (hp.trans hrest)

section Answers

variable {operand : Reader Expr}

theorem answers_expect (kind : Token.Kind) (expected : String) :
    Answers ctx (expect ctx kind expected) := by
  refine ⟨forward_expect kind expected, fun tokens => ?_⟩
  cases tokens with
  | nil => exact .error (about_ended expected)
  | cons token rest =>
    simp only [expect]
    split
    · exact .ok _
    · exact .error (about_unexpected List.mem_cons_self expected)

theorem blames_chain (hop : Answers ctx operand) (fuel : Nat) (waiting : List Waiting)
    (left : Expr) (tokens : List Token) :
    Blames ctx tokens (chain ctx operand fuel waiting left tokens) := by
  induction fuel generalizing waiting left tokens with
  | zero => exact .ok _
  | succ fuel ih =>
    cases tokens with
    | nil => exact .ok _
    | cons token rest =>
      simp only [chain, chainRound]
      split
      · exact .ok _
      · split
        · exact .error (about_invalid List.mem_cons_self _)
        · exact hop.bind (List.suffix_cons _ _) fun right last hlast => (ih _ right last).mono hlast

theorem answers_expression (hop : Answers ctx operand) : Answers ctx (expression ctx operand) :=
  ⟨forward_expression hop.forward, fun tokens =>
    hop.bind (List.suffix_refl tokens) fun _ rest hrest => (blames_chain hop _ _ _ rest).mono hrest⟩

theorem blames_separated {close : Token.Kind} {expected : String} {item : List α → Reader α}
    (hitem : ∀ items, Answers ctx (item items)) (fuel : Nat) (items : List α)
    (tokens : List Token) :
    Blames ctx tokens (separated ctx close expected item fuel items tokens) := by
  induction fuel generalizing items tokens with
  | zero => exact .error (about_ended expected)
  | succ fuel ih =>
    simp only [separated, separatedRound]
    split
    · exact .ok _
    · refine (hitem items).bind (suffix_skip tokens) fun x rest hrest => ?_
      have hskip := (suffix_skip rest).trans hrest
      dsimp only
      split
      · next last heat => exact (ih _ last).mono ((suffix_eat heat).trans hskip)
      · exact (answers_expect close expected).bind hskip fun _ _ _ => .ok _

theorem answers_delimited {close : Token.Kind} {expected : String} {item : List α → Reader α}
    (hitem : ∀ items, Answers ctx (item items)) :
    Answers ctx (delimited ctx close expected item) :=
  ⟨forward_delimited fun items => (hitem items).forward,
    fun tokens => blames_separated hitem _ _ tokens⟩

theorem answers_parameter (seen : List String) : Answers ctx (parameter ctx seen) := by
  refine ⟨forward_parameter seen, fun tokens => ?_⟩
  have hname : Answers ctx (expect ctx .name "parameter name") := answers_expect _ _
  refine (hname.blames tokens).bind (reads_expect _ _ tokens) fun (token, rest) htoken => ?_
  dsimp only
  split
  · exact .error (about_invalid htoken.2.1 _)
  · exact .ok _

theorem answers_parameters : Answers ctx (parameters ctx) := by
  refine ⟨forward_parameters, fun tokens => ?_⟩
  refine (answers_expect _ _).bind (List.suffix_refl tokens) fun _ rest hrest => ?_
  exact ((answers_delimited answers_parameter).blames rest).mono hrest

theorem answers_argument (hop : Answers ctx operand) : Answers ctx (argument ctx operand) := by
  have hexpression := answers_expression hop
  refine ⟨forward_argument hop.forward, fun tokens => ?_⟩
  cases tokens with
  | nil => exact hexpression.bind (List.suffix_refl []) fun _ _ _ => .ok _
  | cons token rest =>
    simp only [argument]
    split
    · exact hexpression.bind (List.suffix_cons _ _) fun _ _ _ => .ok _
    · exact hexpression.bind (List.suffix_refl _) fun _ _ _ => .ok _

theorem answers_pair (hop : Answers ctx operand) : Answers ctx (pair ctx operand) := by
  have hexpression := answers_expression hop
  refine ⟨forward_pair hop.forward, fun tokens => ?_⟩
  refine hexpression.bind (List.suffix_refl tokens) fun _ rest hrest => ?_
  refine (answers_expect _ _).bind ((suffix_skip rest).trans hrest) fun _ rest hrest => ?_
  exact hexpression.bind ((suffix_skip rest).trans hrest) fun _ _ _ => .ok _

theorem blames_endItem (tokens : List Token) : Blames ctx tokens (endItem ctx tokens) := by
  unfold endItem
  split
  · exact .ok _
  · exact ((answers_expect _ _).blames tokens).map _

theorem blames_blockItems (hop : Answers ctx operand) (fuel : Nat) (tokens : List Token) :
    Blames ctx tokens (blockItems ctx operand fuel tokens) := by
  induction fuel generalizing tokens with
  | zero => exact .error (about_ended _)
  | succ fuel ih =>
    have hskip := suffix_skip tokens
    simp only [blockItems, blockRound]
    split
    · exact .error (about_ended _)
    · next token rest heq =>
      rw [heq] at hskip
      split
      · exact .ok _
      · refine (answers_expression hop).bind hskip fun _ rest hrest => ?_
        refine ((blames_endItem rest).mono hrest).bind (suffix_endItem rest) fun last hlast => ?_
        refine ((ih last).mono (hlast.trans hrest)).bind (forward_blockItems hop.forward fuel last)
          fun _ _ => .ok _

theorem answers_block (hop : Answers ctx operand) : Answers ctx (block ctx operand) := by
  refine ⟨forward_block hop.forward, fun tokens => ?_⟩
  have hbrace : Answers ctx (expect ctx .leftBrace "`\x7b`") := answers_expect _ _
  refine (hbrace.blames tokens).bind (reads_expect _ _ tokens) fun (brace, rest) h => ?_
  obtain ⟨hrest, hmem, -⟩ := h
  refine ((blames_blockItems hop _ rest).mono hrest).bind (forward_blockItems hop.forward _ rest)
    fun (items, last) _ => ?_
  dsimp only
  split
  · exact .error (about_invalid hmem .emptyBlock)
  · exact .ok _

theorem blames_conditional (hop : Answers ctx operand) (fuel : Nat) (word : Token)
    (tokens : List Token) : Blames ctx tokens (conditional ctx operand fuel word tokens) := by
  induction fuel generalizing word tokens with
  | zero => exact .error (about_ended _)
  | succ fuel ih =>
    refine (answers_expression hop).bind (List.suffix_refl tokens) fun _ rest hrest => ?_
    refine (answers_block hop).bind hrest fun _ rest hrest => ?_
    have hjoin := (suffix_joinBranches rest).trans hrest
    dsimp only
    split
    · exact .ok _
    · next token others heq =>
      rw [heq] at hjoin
      have hothers := (List.suffix_cons _ _).trans hjoin
      split
      · have hforward : Forward (conditional ctx operand fuel token) :=
          (roots_conditional hop.forward fuel token).forward
        exact ((ih token others).mono hothers).bind (hforward others) fun _ _ => .ok _
      · split
        · exact (answers_block hop).bind hothers fun _ _ _ => .ok _
        · exact .ok _

theorem answers_definition (hop : Answers ctx operand) (start : Token) (tag : Option String) :
    Answers ctx (definition ctx operand start tag) := by
  refine ⟨(roots_definition hop.forward start tag).forward, fun tokens => ?_⟩
  refine (answers_expect _ _).bind (List.suffix_refl tokens) fun _ rest hrest => ?_
  refine answers_parameters.bind hrest fun _ rest hrest => ?_
  exact (answers_block hop).bind hrest fun _ _ _ => .ok _

theorem blames_tagged (hop : Answers ctx operand) (tag : Token) (tokens : List Token) :
    Blames ctx tokens (tagged ctx operand tag tokens) :=
  (answers_expect _ _).bind (suffix_skip tokens) fun _ rest hrest =>
    ((answers_definition hop _ _).blames rest).mono hrest

theorem blames_lambda (hop : Answers ctx operand) (word : Token) (tokens : List Token) :
    Blames ctx tokens (lambda ctx operand word tokens) :=
  answers_parameters.bind (List.suffix_refl tokens) fun _ _ hrest =>
    (answers_block hop).bind hrest fun _ _ _ => .ok _

theorem blames_parenthesized (hop : Answers ctx operand) (tokens : List Token) :
    Blames ctx tokens (parenthesized ctx operand tokens) :=
  (answers_expression hop).bind (suffix_skip tokens) fun _ rest hrest =>
    (answers_expect _ _).bind ((suffix_skip rest).trans hrest) fun _ _ _ => .ok _

theorem blames_nameOrCall (hop : Answers ctx operand) (token : Token) (tokens : List Token) :
    Blames ctx tokens (nameOrCall ctx operand token tokens) := by
  simp only [nameOrCall]
  split
  · exact .ok _
  · next rest heat =>
    exact (answers_delimited fun _ => answers_argument hop).bind (suffix_eat heat)
      fun _ _ _ => .ok _

theorem blames_listLiteral (hop : Answers ctx operand) (bracket : Token) (tokens : List Token) :
    Blames ctx tokens (listLiteral ctx operand bracket tokens) :=
  (answers_delimited fun _ => answers_expression hop).bind (List.suffix_refl tokens)
    fun _ _ _ => .ok _

theorem blames_hashLiteral (hop : Answers ctx operand) (brace : Token) (tokens : List Token) :
    Blames ctx tokens (hashLiteral ctx operand brace tokens) :=
  (answers_delimited fun _ => answers_pair hop).bind (List.suffix_refl tokens)
    fun _ _ _ => .ok _

/-- A number that cannot be represented is itself the token that the error is about. -/
theorem blames_number (token : Token) (tokens : List Token) :
    Blames ctx (token :: tokens) (number ctx token tokens) := by
  unfold number
  split
  · exact .ok _
  · exact .error (about_invalid List.mem_cons_self _)

theorem blames_form (hop : Answers ctx operand) (tokens : List Token) :
    Blames ctx tokens (form ctx operand tokens) := by
  cases tokens with
  | nil => exact .error (about_ended _)
  | cons token rest =>
    have hcons := List.suffix_cons token rest
    simp only [form]
    split
    · exact hop.bind hcons fun _ _ _ => .ok _
    · exact hop.bind hcons fun _ _ _ => .ok _
    · exact (blames_tagged hop token rest).mono hcons
    · exact ((answers_definition hop token none).blames rest).mono hcons
    · exact (blames_lambda hop token rest).mono hcons
    · exact (blames_conditional hop _ token rest).mono hcons
    · exact (blames_listLiteral hop token rest).mono hcons
    · exact (blames_hashLiteral hop token rest).mono hcons
    · exact (blames_parenthesized hop rest).mono hcons
    · exact (blames_nameOrCall hop token rest).mono hcons
    · exact blames_number token rest
    · exact .ok _
    · exact .ok _
    · exact .ok _
    · exact .ok _
    · exact .ok _
    · exact .error (about_unexpected List.mem_cons_self _)

end Answers

/-- To any depth, a reader of operands leaves the end of its tokens or fails with an error about
them. -/
theorem answers_operand (ctx : Context) (depth : Nat) : Answers ctx (operand ctx depth) := by
  refine ⟨(roots_operand ctx depth).forward, ?_⟩
  induction depth with
  | zero =>
    intro tokens
    refine .error ?_
    cases tokens with
    | nil => exact .inr rfl
    | cons token rest => exact .inl ⟨token, List.mem_cons_self, rfl⟩
  | succ depth ih => exact fun tokens => blames_form ⟨(roots_operand ctx depth).forward, ih⟩ tokens

theorem blames_endExpression (tokens : List Token) :
    Blames ctx tokens (endExpression ctx tokens) := by
  cases tokens with
  | nil => exact .ok _
  | cons token rest =>
    simp only [endExpression]
    split
    · exact .ok _
    · exact .error (about_unexpected List.mem_cons_self _)

theorem blames_programFrom (fuel : Nat) (tokens : List Token) :
    Blames ctx tokens (programFrom ctx fuel tokens) := by
  induction fuel generalizing tokens with
  | zero => exact .error (about_ended _)
  | succ fuel ih =>
    have hskip := suffix_skip tokens
    simp only [programFrom, programRound]
    split
    · split
      · next error hfailure => exact .error hfailure
      · exact .ok _
    · next token rest heq =>
      rw [heq] at hskip
      refine (answers_expression (answers_operand ctx maxDepth)).bind hskip fun _ rest hrest => ?_
      refine ((blames_endExpression rest).mono hrest).bind (suffix_endExpression rest)
        fun last hlast => ?_
      refine ((ih last).mono (hlast.trans hrest)).bind (P := fun _ => True) ?_ fun _ _ => .ok _
      cases programFrom ctx fuel last <;> trivial

end Parser

/-- Every error of a source unit is about the tokens that were read: a token that was not expected
is one of them, and the place is that of a token or the end of the text. -/
theorem Source.about_of_parseStream {source : Source} {stream : TokenStream} {e : ParseError}
    (h : source.parseStream stream = .error e) :
    e.About ⟨source.locate, source.endIndex, stream.failure⟩ stream.tokens :=
  Parser.blames_programFrom _ _ e h

end Teal
