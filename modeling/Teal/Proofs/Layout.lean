import Teal.Proofs.Rendering

/-!
# Readers do not look at places

What a reader makes of tokens depends on their kinds and texts only. Where they stand goes into the
locations of expressions and errors, and no decision is taken on it. So a reader commutes with the
erasure of places: on tokens without places it gives, without locations, what it gives on the
tokens themselves, be it an expression or an error.

## Main definitions

* `Token.bare`, `ParseError.bare`: tokens and errors without places.
* `Parser.Erases`: a reader commutes with the erasure of places.

## Main statements

* `Parser.erases_operand`: the reader of operands, to any depth.
* `Source.erase_parse`: source units with the same tokens, places aside, are parsed alike.
-/

namespace Teal

open Teal.Expr (nowhere)

def Token.bare (t : Token) : Token :=
  { t with line := 0, index := 0 }

@[simp] theorem Token.bare_kind (t : Token) : t.bare.kind = t.kind := rfl

@[simp] theorem Token.bare_value (t : Token) : t.bare.value = t.value := rfl

/-- A token without its place is its face. -/
theorem Token.map_bare_of_face {ts ts' : List Token} (h : ts.map face = ts'.map face) :
    ts.map bare = ts'.map bare := by
  have ofFace (ts : List Token) :
      ts.map bare = (ts.map face).map fun (kind, value) => ⟨kind, value, 0, 0⟩ := by
    rw [List.map_map]
    rfl
  rw [ofFace, ofFace, h]

def ParseError.bare : ParseError → ParseError
  | .lex error => .lex error
  | .unexpectedToken expected found _ => .unexpectedToken expected found.bare nowhere
  | .unexpectedEnd expected _ => .unexpectedEnd expected nowhere
  | .invalid problem _ => .invalid problem nowhere

namespace Waiting

def bare (w : Waiting) : Waiting :=
  ⟨w.left.bare, w.op⟩

@[simp] theorem close_bare (w : Waiting) (e : Expr) : w.bare.close e.bare = (w.close e).bare := by
  simp [close, bare, Expr.bare]

theorem closeAll_bare (ws : List Waiting) (e : Expr) :
    closeAll (ws.map bare) e.bare = (closeAll ws e).bare := by
  induction ws generalizing e with
  | nil => rfl
  | cons w rest ih => simp only [List.map_cons, closeAll, close_bare, ih]

theorem push_bare (op : BinaryOp) (ws : List Waiting) (e : Expr) :
    push op (ws.map bare) e.bare = (push op ws e).map (List.map bare) := by
  induction ws generalizing e with
  | nil => rfl
  | cons w rest ih =>
    simp only [List.map_cons, push, close_bare, show w.bare.op = w.op from rfl, ih]
    split
    · rfl
    · split
      · rfl
      · cases op.grouping <;> rfl

end Waiting

namespace Parser

def Context.bare (ctx : Context) : Context where
  locate _ := nowhere
  endIndex := 0
  failure := ctx.failure

@[simp] theorem Context.bare_loc (ctx : Context) (t : Token) : ctx.bare.loc t = nowhere := rfl

@[simp] theorem Context.bare_unexpected (ctx : Context) (t : Token) (expected : String) :
    ctx.bare.unexpected t.bare expected = (ctx.unexpected t expected).bare := rfl

@[simp] theorem Context.bare_invalid (ctx : Context) (t : Token) (problem : ParseProblem) :
    ctx.bare.invalid t.bare problem = (ctx.invalid t problem).bare := rfl

@[simp] theorem Context.bare_ended (ctx : Context) (expected : String) :
    ctx.bare.ended expected = (ctx.ended expected).bare := by
  unfold ended
  rcases h : ctx.failure with _ | error <;> simp [Context.bare, h, ParseError.bare]

/-- A result without places, given what is left of a value without them. -/
def erase (f : α → β) : Except ParseError α → Except ParseError β
  | .error e => .error e.bare
  | .ok a => .ok (f a)

def Parsed.bare (f : α → β) (p : Parsed α) : Parsed β :=
  (f p.1, p.2.map Token.bare)

/-- A reader commutes with the erasure of places: `r'` is on tokens without places what `r` is on
tokens with them. -/
def Erases (f : α → β) (r : Reader α) (r' : Reader β) : Prop :=
  ∀ tokens, r' (tokens.map Token.bare) = erase (Parsed.bare f) (r tokens)

/-- Results one after the other. -/
theorem erase_bind {f : α → α'} {g : β → β'} {x : Except ParseError α}
    {k : α → Except ParseError β} {k' : α' → Except ParseError β'}
    (h : ∀ a, k' (f a) = erase g (k a)) : erase f x >>= k' = erase g (x >>= k) := by
  cases x with
  | error e => rfl
  | ok a => exact h a

/-- A reader and what is done with what it reads. -/
theorem Erases.bind {f : α → α'} {g : β → β'} {r : Reader α} {r' : Reader α'}
    {k : Parsed α → Except ParseError β} {k' : Parsed α' → Except ParseError β'}
    (hr : Erases f r r') (tokens : List Token)
    (h : ∀ a rest, k' (f a, rest.map Token.bare) = erase g (k (a, rest))) :
    r' (tokens.map Token.bare) >>= k' = erase g (r tokens >>= k) := by
  rw [hr tokens]
  exact erase_bind fun (a, rest) => h a rest

/-! ## Tokens -/

@[simp] theorem skipTerminators_bare (tokens : List Token) :
    skipTerminators (tokens.map Token.bare) = (skipTerminators tokens).map Token.bare := by
  unfold skipTerminators
  rw [List.dropWhile_map]
  rfl

@[simp] theorem eat?_bare (kind : Token.Kind) (tokens : List Token) :
    eat? kind (tokens.map Token.bare) = (eat? kind tokens).map (List.map Token.bare) := by
  cases tokens with
  | nil => rfl
  | cons t rest =>
    by_cases h : t.kind = kind <;> simp [eat?, h]

theorem erases_expect (ctx : Context) (kind : Token.Kind) (expected : String) :
    Erases Token.bare (expect ctx kind expected) (expect ctx.bare kind expected) := by
  intro tokens
  cases tokens with
  | nil => simp [expect, erase]
  | cons t rest =>
    by_cases h : t.kind = kind <;> simp [expect, h, erase, Parsed.bare]

@[simp] theorem startsKeyword_bare (tokens : List Token) :
    startsKeyword (tokens.map Token.bare) = startsKeyword tokens := by
  rcases tokens with _ | ⟨t, _ | ⟨u, rest⟩⟩ <;> rfl

@[simp] theorem joinBranches_bare (tokens : List Token) :
    joinBranches (tokens.map Token.bare) = (joinBranches tokens).map Token.bare := by
  rcases tokens with _ | ⟨t, _ | ⟨u, rest⟩⟩
  · rfl
  · rfl
  · simp only [List.map_cons, joinBranches, Token.bare_kind]
    rw [apply_ite (List.map Token.bare)]
    rfl

/-! ## Constructs -/

section Constructs

variable {ctx : Context} {operand operand' : Reader Expr}

theorem erases_chain (hop : Erases Expr.bare operand operand') (fuel : Nat) (ws : List Waiting)
    (left : Expr) : Erases Expr.bare (chain ctx operand fuel ws left)
      (chain ctx.bare operand' fuel (ws.map Waiting.bare) left.bare) := by
  induction fuel generalizing ws left with
  | zero =>
    intro tokens
    simp [chain, erase, Parsed.bare, Waiting.closeAll_bare]
  | succ fuel ih =>
    intro tokens
    cases tokens with
    | nil => simp [chain, chainRound, erase, Parsed.bare, Waiting.closeAll_bare]
    | cons t rest =>
      simp only [List.map_cons, chain, chainRound, Token.bare_kind, Waiting.push_bare]
      cases BinaryOp.ofKind? t.kind with
      | none => simp [erase, Parsed.bare, Waiting.closeAll_bare]
      | some op =>
        dsimp only
        cases Waiting.push op ws left with
        | none => simp [erase]
        | some ws => exact hop.bind rest fun right rest => ih ws right rest

theorem erases_expression (hop : Erases Expr.bare operand operand') :
    Erases Expr.bare (expression ctx operand) (expression ctx.bare operand') := by
  intro tokens
  refine hop.bind tokens fun left rest => ?_
  dsimp only
  rw [List.length_map]
  exact erases_chain hop rest.length [] left rest

theorem erases_separated {close : Token.Kind} {expected : String} {f : α → β}
    {item : List α → Reader α} {item' : List β → Reader β}
    (hitem : ∀ items, Erases f (item items) (item' (items.map f))) (fuel : Nat) (items : List α) :
    Erases (List.map f) (separated ctx close expected item fuel items)
      (separated ctx.bare close expected item' fuel (items.map f)) := by
  induction fuel generalizing items with
  | zero =>
    intro tokens
    simp [separated, erase]
  | succ fuel ih =>
    intro tokens
    simp only [separated, separatedRound, skipTerminators_bare, eat?_bare]
    cases eat? close (skipTerminators tokens) with
    | some rest => rfl
    | none =>
      refine (hitem items).bind (skipTerminators tokens) fun x rest => ?_
      have hitems : items.map f ++ [f x] = (items ++ [x]).map f := by simp
      simp only [skipTerminators_bare, eat?_bare, hitems]
      cases eat? .comma (skipTerminators rest) with
      | some rest => exact ih (items ++ [x]) rest
      | none => exact (erases_expect ctx close expected).bind _ fun _ rest => rfl

theorem erases_delimited {close : Token.Kind} {expected : String} {f : α → β}
    {item : List α → Reader α} {item' : List β → Reader β}
    (hitem : ∀ items, Erases f (item items) (item' (items.map f))) :
    Erases (List.map f) (delimited ctx close expected item)
      (delimited ctx.bare close expected item') := by
  intro tokens
  unfold delimited
  rw [List.length_map]
  exact erases_separated hitem (tokens.length + 1) [] tokens

theorem erases_parameter (seen : List String) :
    Erases id (parameter ctx seen) (parameter ctx.bare seen) := by
  intro tokens
  refine (erases_expect ctx .name "parameter name").bind tokens fun t rest => ?_
  simp only [Token.bare_value]
  rw [apply_ite (erase (Parsed.bare id))]
  rfl

theorem erases_parameters : Erases id (parameters ctx) (parameters ctx.bare) := by
  intro tokens
  refine (erases_expect ctx .leftParen "`(`").bind tokens fun _ rest => ?_
  have hitem (seen : List String) :
      Erases id (parameter ctx seen) (parameter ctx.bare (seen.map id)) := by
    rw [List.map_id]
    exact erases_parameter seen
  have hparams : Erases (List.map id) (delimited ctx .rightParen "`,` or `)`" (parameter ctx))
      (delimited ctx.bare .rightParen "`,` or `)`" (parameter ctx.bare)) := erases_delimited hitem
  rw [List.map_id_fun] at hparams
  exact hparams rest

theorem erases_argument (hop : Erases Expr.bare operand operand') :
    Erases Expr.bare (argument ctx operand) (argument ctx.bare operand') := by
  intro tokens
  cases tokens with
  | nil =>
    refine (erases_expression hop).bind [] fun value rest => ?_
    simp [erase, Parsed.bare]
  | cons t rest =>
    simp only [List.map_cons, argument]
    rw [← List.map_cons, startsKeyword_bare]
    split
    · exact (erases_expression hop).bind rest fun value rest => rfl
    · refine (erases_expression hop).bind (t :: rest) fun value rest => ?_
      simp [erase, Parsed.bare]

def barePair (p : Expr × Expr) : Expr × Expr :=
  (p.1.bare, p.2.bare)

theorem erases_pair (hop : Erases Expr.bare operand operand') :
    Erases barePair (pair ctx operand) (pair ctx.bare operand') := by
  intro tokens
  refine (erases_expression hop).bind tokens fun key rest => ?_
  dsimp only
  rw [skipTerminators_bare]
  refine (erases_expect ctx .colon "`:`").bind (skipTerminators rest) fun _ rest => ?_
  dsimp only
  rw [skipTerminators_bare]
  exact (erases_expression hop).bind (skipTerminators rest) fun value rest => rfl

theorem erases_listLiteral (hop : Erases Expr.bare operand operand') (bracket : Token) :
    Erases Expr.bare (listLiteral ctx operand bracket)
      (listLiteral ctx.bare operand' bracket.bare) := by
  intro tokens
  refine (erases_delimited fun _ => erases_expression hop).bind tokens fun items rest => ?_
  simp [erase, Parsed.bare, Expr.bare_callNamed, Function.comp_def]

theorem erases_hashLiteral (hop : Erases Expr.bare operand operand') (brace : Token) :
    Erases Expr.bare (hashLiteral ctx operand brace)
      (hashLiteral ctx.bare operand' brace.bare) := by
  intro tokens
  refine (erases_delimited fun _ => erases_pair hop).bind tokens fun pairs rest => ?_
  simp [erase, Parsed.bare, Expr.bare_callNamed, List.flatMap_map, List.map_flatMap, barePair]

theorem endItem_bare (tokens : List Token) :
    endItem ctx.bare (tokens.map Token.bare) =
      erase (List.map Token.bare) (endItem ctx tokens) := by
  simp only [endItem, eat?_bare]
  cases eat? .rightBrace tokens with
  | some rest => rfl
  | none =>
    dsimp only [Option.map_none]
    rw [erases_expect ctx .terminator _ tokens]
    cases expect ctx .terminator _ tokens <;> rfl

theorem erases_blockItems (hop : Erases Expr.bare operand operand') (fuel : Nat) :
    Erases (List.map Expr.bare) (blockItems ctx operand fuel)
      (blockItems ctx.bare operand' fuel) := by
  induction fuel with
  | zero =>
    intro tokens
    simp [blockItems, erase]
  | succ fuel ih =>
    intro tokens
    simp only [blockItems, blockRound, skipTerminators_bare]
    cases skipTerminators tokens with
    | nil => simp [erase]
    | cons t rest =>
      by_cases h : t.kind = .rightBrace
      · simp [h, erase, Parsed.bare]
      · simp only [List.map_cons, Token.bare_kind, h, if_false]
        refine (erases_expression hop).bind (t :: rest) fun item rest => ?_
        dsimp only
        rw [endItem_bare]
        refine erase_bind fun rest => ?_
        exact ih.bind rest fun items rest => rfl

theorem erases_block (hop : Erases Expr.bare operand operand') :
    Erases Expr.bare (block ctx operand) (block ctx.bare operand') := by
  intro tokens
  refine (erases_expect ctx .leftBrace _).bind tokens fun brace rest => ?_
  dsimp only
  rw [List.length_map]
  refine (erases_blockItems hop (rest.length + 1)).bind rest fun items rest => ?_
  cases items with
  | nil => rfl
  | cons item items => simp [erase, Parsed.bare, Expr.bare]

theorem erases_conditional (hop : Erases Expr.bare operand operand') (fuel : Nat) (word : Token) :
    Erases Expr.bare (conditional ctx operand fuel word)
      (conditional ctx.bare operand' fuel word.bare) := by
  induction fuel generalizing word with
  | zero =>
    intro tokens
    simp [conditional, erase]
  | succ fuel ih =>
    intro tokens
    refine (erases_expression hop).bind tokens fun condition rest => ?_
    refine (erases_block hop).bind rest fun consequence rest => ?_
    simp only [joinBranches_bare]
    cases joinBranches rest with
    | nil => rfl
    | cons t rest =>
      simp only [List.map_cons, Token.bare_kind]
      by_cases helif : t.kind = .kwElif
      · simp only [helif, if_true]
        exact (ih t).bind rest fun alternative rest => rfl
      by_cases helse : t.kind = .kwElse
      · simp only [helse, reduceCtorEq, if_true, if_false]
        exact (erases_block hop).bind rest fun alternative rest => rfl
      · simp only [helif, helse, if_false]
        rfl

theorem erases_definition (hop : Erases Expr.bare operand operand') (start : Token)
    (tag : Option String) : Erases Expr.bare (definition ctx operand start tag)
      (definition ctx.bare operand' start.bare tag) := by
  intro tokens
  refine (erases_expect ctx .name _).bind tokens fun name rest => ?_
  refine erases_parameters.bind rest fun params rest => ?_
  exact (erases_block hop).bind rest fun body rest => rfl

theorem erases_tagged (hop : Erases Expr.bare operand operand') (tag : Token) :
    Erases Expr.bare (tagged ctx operand tag) (tagged ctx.bare operand' tag.bare) := by
  intro tokens
  unfold tagged
  rw [skipTerminators_bare]
  refine (erases_expect ctx .kwFn _).bind (skipTerminators tokens) fun _ rest => ?_
  exact erases_definition hop tag (some tag.value) rest

theorem erases_lambda (hop : Erases Expr.bare operand operand') (word : Token) :
    Erases Expr.bare (lambda ctx operand word) (lambda ctx.bare operand' word.bare) := by
  intro tokens
  refine erases_parameters.bind tokens fun params rest => ?_
  exact (erases_block hop).bind rest fun body rest => rfl

theorem erases_parenthesized (hop : Erases Expr.bare operand operand') :
    Erases Expr.bare (parenthesized ctx operand) (parenthesized ctx.bare operand') := by
  intro tokens
  unfold parenthesized
  rw [skipTerminators_bare]
  refine (erases_expression hop).bind (skipTerminators tokens) fun inner rest => ?_
  dsimp only
  rw [skipTerminators_bare]
  exact (erases_expect ctx .rightParen _).bind (skipTerminators rest) fun _ rest => rfl

theorem erases_nameOrCall (hop : Erases Expr.bare operand operand') (name : Token) :
    Erases Expr.bare (nameOrCall ctx operand name) (nameOrCall ctx.bare operand' name.bare) := by
  intro tokens
  simp only [nameOrCall, eat?_bare]
  cases eat? .leftParen tokens with
  | none => rfl
  | some rest =>
    refine (erases_delimited fun _ => erases_argument hop).bind rest fun args rest => ?_
    simp [erase, Parsed.bare, Expr.bare]

theorem erases_number (t : Token) : Erases Expr.bare (number ctx t) (number ctx.bare t.bare) := by
  intro tokens
  simp only [number, Token.bare_value]
  cases Literal.ofNumber? t.value <;> rfl

/-- One operand, given the reader for the operands inside it. -/
theorem erases_form (hop : Erases Expr.bare operand operand') :
    Erases Expr.bare (form ctx operand) (form ctx.bare operand') := by
  intro tokens
  cases tokens with
  | nil => simp [form, erase]
  | cons t rest =>
    simp only [List.map_cons, form, Token.bare_kind]
    cases t.kind with
    | kwAsync | kwAwait => exact hop.bind rest fun inner rest => rfl
    | tag => exact erases_tagged hop t rest
    | kwFn => exact erases_definition hop t none rest
    | kwLambda => exact erases_lambda hop t rest
    | kwIf =>
      dsimp only
      rw [List.length_map]
      exact erases_conditional hop (rest.length + 1) t rest
    | leftBracket => exact erases_listLiteral hop t rest
    | leftBrace => exact erases_hashLiteral hop t rest
    | leftParen => exact erases_parenthesized hop rest
    | name => exact erases_nameOrCall hop t rest
    | number => exact erases_number t rest
    | _ => rfl

/-- Operands to any depth. -/
theorem erases_operand (ctx : Context) (depth : Nat) :
    Erases Expr.bare (Parser.operand ctx depth) (Parser.operand ctx.bare depth) := by
  induction depth with
  | zero => exact fun tokens => rfl
  | succ depth ih => exact erases_form ih

end Constructs

/-! ## Programs -/

theorem endExpression_bare (ctx : Context) (tokens : List Token) :
    endExpression ctx.bare (tokens.map Token.bare) =
      erase (List.map Token.bare) (endExpression ctx tokens) := by
  cases tokens with
  | nil => rfl
  | cons t rest =>
    by_cases h : t.kind = .terminator <;> simp [endExpression, h, erase]

theorem programFrom_bare (ctx : Context) (fuel : Nat) (tokens : List Token) :
    programFrom ctx.bare fuel (tokens.map Token.bare) =
      erase (List.map Expr.bare) (programFrom ctx fuel tokens) := by
  induction fuel generalizing tokens with
  | zero => simp [programFrom, erase]
  | succ fuel ih =>
    simp only [programFrom, programRound, skipTerminators_bare]
    cases skipTerminators tokens with
    | nil =>
      simp only [List.map_nil, Context.bare]
      cases ctx.failure <;> rfl
    | cons t rest =>
      refine (erases_expression (erases_operand ctx maxDepth)).bind (t :: rest)
        fun first rest => ?_
      dsimp only
      rw [endExpression_bare]
      refine erase_bind fun rest => ?_
      rw [ih]
      exact erase_bind fun others => rfl

theorem program_bare (ctx : Context) (tokens : List Token) :
    program ctx.bare (tokens.map Token.bare) = erase (List.map Expr.bare) (program ctx tokens) := by
  unfold program
  rw [List.length_map]
  exact programFrom_bare ctx _ tokens

end Parser

/-- Source units with the same tokens, places aside, are parsed alike. -/
theorem Source.erase_parse {a b : Source} (ha : a.lex.terminate.failure = none)
    (hb : b.lex.terminate.failure = none)
    (htokens : a.lex.terminate.tokens.map Token.face = b.lex.terminate.tokens.map Token.face) :
    Parser.erase (List.map Expr.bare) a.parse = Parser.erase (List.map Expr.bare) b.parse := by
  simp only [parse, parseStream, ← Parser.program_bare, Parser.Context.bare, ha, hb,
    Token.map_bare_of_face htokens]

end Teal
