import Teal.Proofs.Names

/-!
# The grammar of expressions

Not every tree of expressions is spelled by some tokens: arguments stand in calls only, blocks
only where braces do, and a literal is what its token says. The expressions that readers give are
those of the grammar.

## Main definitions

* `Literal.ReadFrom`, `Literal.Spelled`: a text is read as a literal, and some text is.
* `Expr.Shaped`: an expression of the grammar, by the place where it stands.

## Main statements

* `Parser.shaped_operand`: operands are of the grammar.
* `shaped_of_parse`: a program that was read is of the grammar.
-/

namespace Teal

def Literal.ReadFrom (text : String) : Literal → Prop
  | .null | .boolean _ => True
  | .integer n => Literal.ofNumber? text = some (.integer n)
  | .float x => Literal.ofNumber? text = some (.float x)
  | .string s => Text.unquote text = s

/-- A literal has a token that spells it. -/
def Literal.Spelled (value : Literal) : Prop :=
  ∃ text, value.ReadFrom text

theorem Literal.spelled_of_ofNumber? {text : String} {value : Literal}
    (h : ofNumber? text = some value) : value.Spelled := by
  refine ⟨text, ?_⟩
  unfold ofNumber? at h
  split at h
  · obtain ⟨x, -, rfl⟩ := Option.map_eq_some_iff.mp h
    simp_all [ReadFrom, ofNumber?]
  · obtain ⟨n, -, rfl⟩ := Option.map_eq_some_iff.mp h
    simp_all [ReadFrom, ofNumber?]

/-- A double that is spelled is finite. -/
theorem Literal.isFinite_of_spelled {x : Float} (h : (Literal.float x).Spelled) :
    x.isFinite = true := by
  obtain ⟨text, h⟩ := h
  simp only [ReadFrom, ofNumber?] at h
  split at h
  · obtain ⟨y, hy, heq⟩ := Option.map_eq_some_iff.mp h
    cases heq
    exact (Option.filter_eq_some_iff.mp hy).2
  · obtain ⟨n, -, heq⟩ := Option.map_eq_some_iff.mp h
    cases heq

namespace Expr

inductive Place
  | operand
  /-- Between the parentheses of a call. -/
  | argument
  /-- The body of a function or a branch of a conditional. -/
  | body

inductive Shaped : Place → Expr → Prop
  | ident {loc name} : Shaped .operand (.ident loc name)
  | symbol {loc name} : Shaped .operand (.symbol loc name)
  | literal {loc value} : value.Spelled → Shaped .operand (.literal loc value)
  | binary {loc op left right} : Shaped .operand left → Shaped .operand right →
      Shaped .operand (.binary loc op left right)
  | async {loc inner} : Shaped .operand inner → Shaped .operand (.async loc inner)
  | await {loc inner} : Shaped .operand inner → Shaped .operand (.await loc inner)
  | call {loc loc' name args} : (∀ a ∈ args, Shaped .argument a) →
      Shaped .operand (.call loc (.ident loc' name) args)
  | positional {loc value} : Shaped .operand value → Shaped .argument (.argument loc none value)
  | keyword {loc loc' name value} : Shaped .operand value →
      Shaped .argument (.argument loc (some (.symbol loc' name)) value)
  | block {loc items} : items ≠ [] → (∀ e ∈ items, Shaped .operand e) →
      Shaped .body (.block loc items)
  | lambda {loc params body} : params.Nodup → Shaped .body body →
      Shaped .operand (.lambda loc params body)
  | definition {loc name params body tag} : params.Nodup → Shaped .body body →
      Shaped .operand (.definition loc name params body tag)
  | conditional {loc condition consequence} : Shaped .operand condition →
      Shaped .body consequence → Shaped .operand (.conditional loc condition consequence none)
  | otherwise {loc condition consequence alternative} : Shaped .operand condition →
      Shaped .body consequence → Shaped .body alternative →
      Shaped .operand (.conditional loc condition consequence (some alternative))
  /-- A conditional in the place of the alternative. -/
  | elif {loc condition consequence loc' condition' consequence' alternative'} :
      Shaped .operand condition → Shaped .body consequence →
      Shaped .operand (.conditional loc' condition' consequence' alternative') →
      Shaped .operand (.conditional loc condition consequence
        (some (.conditional loc' condition' consequence' alternative')))

end Expr

namespace Parser

/-- What is read first, and the tokens after it, are taken apart. -/
theorem Yields.bindParsed {P : Parsed α → Prop} {Q : β → Prop} {x : Except ParseError (Parsed α)}
    {f : Parsed α → Except ParseError β} (h : Yields P x)
    (hf : ∀ a rest, P (a, rest) → Yields Q (f (a, rest))) : Yields Q (x >>= f) :=
  h.bind fun p hp => hf p.1 p.2 hp

/-- What a reader reads has a property. -/
def Reads (P : α → Prop) (r : Reader α) : Prop :=
  ∀ tokens, Yields (fun p => P p.1) (r tokens)

abbrev ReadsShaped (r : Reader Expr) : Prop :=
  Reads (Expr.Shaped .operand) r

section Kept

/-! ### What operators keep -/

variable {ctx : Context} {operand : Reader Expr} {P : Expr → Prop}

abbrev KeptByOperators (P : Expr → Prop) : Prop :=
  ∀ {loc op left right}, P left → P right → P (.binary loc op left right)

theorem KeptByOperators.closeAll (hP : KeptByOperators P) {waiting : List Waiting} {e : Expr}
    (hwaiting : ∀ w ∈ waiting, P w.left) (he : P e) : P (Waiting.closeAll waiting e) := by
  induction waiting generalizing e with
  | nil => exact he
  | cons w rest ih =>
    rw [List.forall_mem_cons] at hwaiting
    exact ih hwaiting.2 (hP hwaiting.1 he)

theorem KeptByOperators.push (hP : KeptByOperators P) {op : BinaryOp}
    {waiting waiting' : List Waiting} {e : Expr}
    (h : Waiting.push op waiting e = some waiting') (hwaiting : ∀ w ∈ waiting, P w.left)
    (he : P e) : ∀ w ∈ waiting', P w.left := by
  fun_induction Waiting.push op waiting e with
  | case1 => cases h; simpa using he
  | case2 _ _ _ _ ih | case4 _ _ _ _ _ _ ih =>
    rw [List.forall_mem_cons] at hwaiting
    exact ih h hwaiting.2 (hP hwaiting.1 he)
  | case3 | case5 =>
    cases h
    exact List.forall_mem_cons.mpr ⟨he, hwaiting⟩
  | case6 => cases h

theorem KeptByOperators.chain (hP : KeptByOperators P) (hop : Reads P operand) (fuel : Nat)
    {waiting : List Waiting} {left : Expr} (hwaiting : ∀ w ∈ waiting, P w.left) (hleft : P left) :
    Reads P (chain ctx operand fuel waiting left) := by
  induction fuel generalizing waiting left with
  | zero => exact fun tokens => closeAll hP hwaiting hleft
  | succ fuel ih =>
    intro tokens
    cases tokens with
    | nil => exact closeAll hP hwaiting hleft
    | cons token rest =>
      simp only [Parser.chain, chainRound]
      split
      · exact closeAll hP hwaiting hleft
      · split
        · trivial
        · next waiting' hpush =>
          refine .bindParsed (hop rest) fun right last hright => ?_
          exact ih (push hP hpush hwaiting hleft) hright last

/-- What holds of operands, and is kept by operators, holds of expressions. -/
theorem KeptByOperators.expression (hP : KeptByOperators P) (hop : Reads P operand) :
    Reads P (expression ctx operand) :=
  fun tokens => .bindParsed (hop tokens) fun _ rest hleft =>
    chain hP hop _ (by simp) hleft rest

end Kept

section Shaped

variable {ctx : Context} {operand : Reader Expr}

theorem shaped_expression (hop : ReadsShaped operand) : ReadsShaped (expression ctx operand) :=
  KeptByOperators.expression .binary hop

/-- What holds of the items read so far holds of all. -/
theorem reads_separated {close : Token.Kind} {expected : String} {item : List α → Reader α}
    {P : List α → Prop} (hitem : ∀ items, P items → Reads (fun x => P (items ++ [x])) (item items))
    (fuel : Nat) {items : List α} (h : P items) :
    Reads P (separated ctx close expected item fuel items) := by
  induction fuel generalizing items with
  | zero => exact fun _ => trivial
  | succ fuel ih =>
    intro tokens
    simp only [separated, separatedRound]
    split
    · exact h
    · refine .bindParsed (hitem items h _) fun x rest hx => ?_
      dsimp only
      split
      · exact ih hx _
      · exact .bindParsed (forward_expect close expected _) fun _ _ _ => hx

theorem reads_delimited {close : Token.Kind} {expected : String} {item : List α → Reader α}
    {P : List α → Prop} (hitem : ∀ items, P items → Reads (fun x => P (items ++ [x])) (item items))
    (h : P []) : Reads P (delimited ctx close expected item) :=
  fun tokens => reads_separated hitem _ h tokens

theorem reads_items {close : Token.Kind} {expected : String} {item : Reader α} {P : α → Prop}
    (hitem : Reads P item) :
    Reads (fun items => ∀ x ∈ items, P x) (delimited ctx close expected fun _ => item) := by
  refine reads_delimited (fun items hitems tokens => (hitem tokens).mono ?_) (by simp)
  intro p hp x hx
  rcases List.mem_append.mp hx with hx | hx
  · exact hitems x hx
  · exact List.mem_singleton.mp hx ▸ hp

/-- No parameter stands twice. -/
theorem nodup_parameters : Reads List.Nodup (parameters ctx) := by
  refine fun tokens => .bindParsed (forward_expect _ _ tokens) fun _ rest _ => ?_
  refine reads_delimited (fun seen hseen tokens => ?_) List.nodup_nil rest
  refine .bindParsed (forward_expect _ _ tokens) fun token rest _ => ?_
  dsimp only
  split
  · trivial
  · next hnew => exact List.nodup_append.mpr ⟨hseen, by simp, by grind⟩

/-- An argument has a symbol for a keyword, if it has one, and a value that is an expression. -/
theorem reads_argument {P : Expr → Prop} (hvalue : Reads P (expression ctx operand)) :
    Reads (fun a => ∃ loc keyword value, a = .argument loc keyword value ∧
      (∀ k ∈ keyword, ∃ loc name, k = .symbol loc name) ∧ P value) (argument ctx operand) := by
  intro tokens
  cases tokens with
  | nil => exact .bindParsed (hvalue _) fun value _ h => ⟨_, none, value, rfl, by simp, h⟩
  | cons token rest =>
    simp only [argument]
    split
    · exact .bindParsed (hvalue _) fun value _ h => ⟨_, some _, value, rfl, by simp, h⟩
    · exact .bindParsed (hvalue _) fun value _ h => ⟨_, none, value, rfl, by simp, h⟩

theorem shaped_argument (hop : ReadsShaped operand) :
    Reads (Expr.Shaped .argument) (argument ctx operand) := by
  refine fun tokens => (reads_argument (shaped_expression hop) tokens).mono ?_
  rintro ⟨_, rest⟩ ⟨loc, keyword, value, rfl, hkeyword, hvalue⟩
  cases keyword with
  | none => exact .positional hvalue
  | some k =>
    obtain ⟨loc, name, rfl⟩ := hkeyword k rfl
    exact .keyword hvalue

theorem reads_pair {P : Expr → Prop} (hitem : Reads P (expression ctx operand)) :
    Reads (fun p => P p.1 ∧ P p.2) (pair ctx operand) := by
  intro tokens
  refine .bindParsed (hitem tokens) fun key rest hkey => ?_
  refine .bindParsed (forward_expect _ _ _) fun _ rest' _ => ?_
  exact .bindParsed (hitem _) fun value last hvalue => ⟨hkey, hvalue⟩

theorem reads_blockItems {P : Expr → Prop} (hitem : Reads P (expression ctx operand)) (fuel : Nat) :
    Reads (fun items => ∀ e ∈ items, P e) (blockItems ctx operand fuel) := by
  induction fuel with
  | zero => exact fun _ => trivial
  | succ fuel ih =>
    intro tokens
    simp only [blockItems, blockRound]
    split
    · trivial
    · split
      · simp [Yields]
      · refine .bindParsed (hitem _) fun item rest hitem => ?_
        refine .bind (P := fun _ => True) ?_ fun rest' _ => ?_
        · cases endItem ctx rest <;> trivial
        · exact .bindParsed (ih rest') fun items last hitems =>
            List.forall_mem_cons.mpr ⟨hitem, hitems⟩

/-- A block has items, of which holds what holds of expressions. -/
theorem reads_block {P : Expr → Prop} (hitem : Reads P (expression ctx operand)) :
    Reads (fun e => ∃ loc items, e = .block loc items ∧ items ≠ [] ∧ ∀ item ∈ items, P item)
      (block ctx operand) := by
  intro tokens
  refine .bindParsed (forward_expect _ _ tokens) fun brace rest _ => ?_
  refine .bindParsed (reads_blockItems hitem _ _) fun items last hitems => ?_
  dsimp only
  split
  · trivial
  · next hempty => exact ⟨_, _, rfl, by simpa using hempty, hitems⟩

theorem shaped_block (hop : ReadsShaped operand) :
    Reads (Expr.Shaped .body) (block ctx operand) := by
  refine fun tokens => (reads_block (shaped_expression hop) tokens).mono ?_
  rintro ⟨_, rest⟩ ⟨loc, items, rfl, hempty, hitems⟩
  exact .block hempty hitems

/-- What is read after `if` or `elif` is a conditional. -/
theorem shaped_conditional (hop : ReadsShaped operand) (fuel : Nat) (word : Token) :
    Reads (fun e => e.Shaped .operand ∧ ∃ loc condition consequence alternative,
      e = .conditional loc condition consequence alternative)
      (conditional ctx operand fuel word) := by
  induction fuel generalizing word with
  | zero => exact fun _ => trivial
  | succ fuel ih =>
    intro tokens
    refine .bindParsed (shaped_expression hop tokens) fun condition rest hcondition => ?_
    refine .bindParsed (shaped_block hop rest) fun consequence rest' hconsequence => ?_
    dsimp only
    split
    · exact ⟨.conditional hcondition hconsequence, _, _, _, _, rfl⟩
    · next token others _ =>
      split
      · refine .bindParsed (ih token others) fun alternative last hread => ?_
        obtain ⟨halternative, _, _, _, _, rfl⟩ := hread
        exact ⟨.elif hcondition hconsequence halternative, _, _, _, _, rfl⟩
      · split
        · refine .bindParsed (shaped_block hop others) fun alternative last halternative => ?_
          exact ⟨.otherwise hcondition hconsequence halternative, _, _, _, _, rfl⟩
        · exact ⟨.conditional hcondition hconsequence, _, _, _, _, rfl⟩

theorem shaped_definition (hop : ReadsShaped operand) (start : Token) (tag : Option String) :
    ReadsShaped (definition ctx operand start tag) := by
  intro tokens
  refine .bindParsed (forward_expect _ _ tokens) fun name rest _ => ?_
  refine .bindParsed (nodup_parameters rest) fun params rest' hparams => ?_
  exact .bindParsed (shaped_block hop rest') fun body last hbody => .definition hparams hbody

theorem shaped_tagged (hop : ReadsShaped operand) (tag : Token) :
    ReadsShaped (tagged ctx operand tag) :=
  fun _ => .bindParsed (forward_expect _ _ _) fun _ rest _ => shaped_definition hop _ _ rest

theorem shaped_lambda (hop : ReadsShaped operand) (word : Token) :
    ReadsShaped (lambda ctx operand word) := by
  intro tokens
  refine .bindParsed (nodup_parameters tokens) fun params rest hparams => ?_
  exact .bindParsed (shaped_block hop rest) fun body last hbody => .lambda hparams hbody

theorem shaped_parenthesized (hop : ReadsShaped operand) :
    ReadsShaped (parenthesized ctx operand) := by
  intro tokens
  refine .bindParsed (shaped_expression hop _) fun inner rest hinner => ?_
  exact .bindParsed (forward_expect _ _ _) fun _ _ _ => hinner

theorem shaped_nameOrCall (hop : ReadsShaped operand) (token : Token) :
    ReadsShaped (nameOrCall ctx operand token) := by
  intro tokens
  simp only [nameOrCall]
  split
  · exact .ident
  · exact .bindParsed (reads_items (shaped_argument hop) _) fun _ _ hargs => .call hargs

theorem shaped_listLiteral (hop : ReadsShaped operand) (bracket : Token) :
    ReadsShaped (listLiteral ctx operand bracket) := by
  refine fun tokens => .bindParsed (reads_items (shaped_expression hop) tokens) fun items _ h => ?_
  refine .call fun a ha => ?_
  obtain ⟨e, he, rfl⟩ := List.mem_map.mp ha
  exact .positional (h e he)

theorem shaped_hashLiteral (hop : ReadsShaped operand) (brace : Token) :
    ReadsShaped (hashLiteral ctx operand brace) := by
  refine fun tokens =>
    .bindParsed (reads_items (reads_pair (shaped_expression hop)) tokens) fun pairs _ h => ?_
  refine .call fun a ha => ?_
  obtain ⟨p, hp, ha⟩ := List.mem_flatMap.mp ha
  simp only [List.mem_cons, List.not_mem_nil, or_false] at ha
  obtain rfl | rfl := ha
  · exact .positional (h p hp).1
  · exact .positional (h p hp).2

theorem shaped_number (token : Token) : ReadsShaped (number ctx token) := by
  intro tokens
  unfold number
  split
  · next value hvalue => exact .literal (Literal.spelled_of_ofNumber? hvalue)
  · trivial

theorem shaped_form (hop : ReadsShaped operand) : ReadsShaped (form ctx operand) := by
  intro tokens
  cases tokens with
  | nil => trivial
  | cons token rest =>
    simp only [form]
    split
    · exact .bindParsed (hop rest) fun _ _ h => .async h
    · exact .bindParsed (hop rest) fun _ _ h => .await h
    · exact shaped_tagged hop token rest
    · exact shaped_definition hop token none rest
    · exact shaped_lambda hop token rest
    · exact (shaped_conditional hop _ token rest).mono fun _ h => h.1
    · exact shaped_listLiteral hop token rest
    · exact shaped_hashLiteral hop token rest
    · exact shaped_parenthesized hop rest
    · exact shaped_nameOrCall hop token rest
    · exact shaped_number token rest
    · exact .literal ⟨_, rfl⟩
    · exact .literal ⟨"", trivial⟩
    · exact .literal ⟨"", trivial⟩
    · exact .literal ⟨"", trivial⟩
    · exact .symbol
    · trivial

end Shaped

theorem shaped_operand (ctx : Context) (depth : Nat) : ReadsShaped (operand ctx depth) := by
  induction depth with
  | zero => exact fun _ => trivial
  | succ depth ih => exact fun tokens => shaped_form ih tokens

/-- What holds of expressions holds of those of a program. -/
theorem reads_programFrom {ctx : Context} {P : Expr → Prop}
    (h : Reads P (expression ctx (operand ctx maxDepth))) (fuel : Nat) (tokens : List Token) :
    Yields (fun program => ∀ e ∈ program, P e) (programFrom ctx fuel tokens) := by
  induction fuel generalizing tokens with
  | zero => trivial
  | succ fuel ih =>
    simp only [programFrom, programRound]
    split
    · split
      · trivial
      · simp [Yields]
    · refine .bindParsed (h _) fun e rest he => ?_
      refine .bind (P := fun _ => True) ?_ fun last _ => ?_
      · cases endExpression ctx rest <;> trivial
      · exact .bind (ih last) fun others hothers => List.forall_mem_cons.mpr ⟨he, hothers⟩

theorem shaped_programFrom {ctx : Context} (fuel : Nat) (tokens : List Token) :
    Yields (fun program => ∀ e ∈ program, e.Shaped .operand) (programFrom ctx fuel tokens) :=
  reads_programFrom (shaped_expression (shaped_operand ctx maxDepth)) fuel tokens

end Parser

/-- A program that was read is of the grammar. -/
theorem shaped_of_parse {source : Source} {program : List Expr} (h : source.parse = .ok program) :
    ∀ e ∈ program, e.Shaped .operand :=
  (Parser.shaped_programFrom _ _).of_ok h

end Teal
