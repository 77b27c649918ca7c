import Teal.Proofs.Grammar

/-!
# Rendered expressions are read back

Every expression of the grammar can be written as tokens in one plain way: operands of operators
and of `async` and `await` and the conditions of conditionals in parentheses, arguments and
parameters between commas, items of blocks between terminators. A reader gives the expression
back from such tokens, wherever they are from, unless its operands nest too deep. Each construct
ends at tokens that cannot continue it; so what is read does not depend on what follows.

## Main definitions

* `Expr.bare`: an expression without its locations.
* `Rendering`: the choices that the plain way of writing leaves open.
* `Rendering.render`: the tokens of an expression.
* `Expr.nesting`: how deep the operands of the rendered expression nest.
* `Parser.Recovers`: a reader gives back what was rendered.

## Main statements

* `Parser.recovered_of_shaped`: every expression of the grammar is read back.
* `parseStream_render`: so is every program.
-/

namespace Teal

/-! ## Locations -/

namespace Expr

def nowhere : Location := ⟨"", 1, 1, ""⟩

mutual

def bare : Expr → Expr
  | .definition _ name params body tag => .definition nowhere name params (bare body) tag
  | .lambda _ params body => .lambda nowhere params (bare body)
  | .call _ callee args => .call nowhere (bare callee) (bareAll args)
  | .argument _ keyword value => .argument nowhere (bareOption keyword) (bare value)
  | .ident _ name => .ident nowhere name
  | .symbol _ name => .symbol nowhere name
  | .literal _ value => .literal nowhere value
  | .binary _ op left right => .binary nowhere op (bare left) (bare right)
  | .conditional _ condition consequence alternative =>
    .conditional nowhere (bare condition) (bare consequence) (bareOption alternative)
  | .async _ inner => .async nowhere (bare inner)
  | .await _ inner => .await nowhere (bare inner)
  | .block _ items => .block nowhere (bareAll items)

def bareAll : List Expr → List Expr
  | [] => []
  | e :: rest => bare e :: bareAll rest

def bareOption : Option Expr → Option Expr
  | none => none
  | some e => some (bare e)

end

@[simp] theorem bareAll_eq (es : List Expr) : bareAll es = es.map bare := by
  induction es with
  | nil => rfl
  | cons e rest ih => rw [bareAll, ih, List.map_cons]

@[simp] theorem bare_loc (e : Expr) : e.bare.loc = nowhere := by
  cases e <;> rfl

@[simp] theorem bare_positional (e : Expr) : e.positional.bare = e.bare.positional := by
  simp [positional, bare, bareOption]

theorem bare_callNamed (loc : Location) (name : String) (args : List Expr) :
    (callNamed loc name args).bare = callNamed nowhere name (args.map bare) := by
  simp [callNamed, bare]

def Alike (e e' : Expr) : Prop :=
  e'.bare = e.bare

/-! ## Nesting -/

/-- Whether an expression is a conditional, so that `elif` stands for `else if`. -/
def isConditional : Expr → Bool
  | .conditional .. => true
  | _ => false

mutual

/-- How deep the operands of a rendered expression nest, itself counted. Parentheses around an
operand are a level of their own; a conditional in the place of an alternative is none. -/
def nesting : Expr → Nat
  | .ident .. | .symbol .. | .literal .. => 1
  | .binary _ _ left right => 1 + max (nesting left) (nesting right)
  | .async _ inner | .await _ inner => 2 + nesting inner
  | .call _ _ args => 1 + nestingAll args
  | .argument _ _ value => nesting value
  | .lambda _ _ body | .definition _ _ _ body _ => 1 + nesting body
  | .conditional _ condition consequence alternative =>
    1 + max (1 + nesting condition) (max (nesting consequence) (nestingElse alternative))
  | .block _ items => nestingAll items

def nestingAll : List Expr → Nat
  | [] => 0
  | e :: rest => max (nesting e) (nestingAll rest)

def nestingElse : Option Expr → Nat
  | none => 0
  | some e => if e.isConditional then nesting e - 1 else nesting e

end

theorem nesting_le_nestingAll {e : Expr} {es : List Expr} (h : e ∈ es) :
    e.nesting ≤ nestingAll es := by
  induction es with
  | nil => cases h
  | cons e' rest ih =>
    rw [nestingAll]
    rcases List.mem_cons.mp h with rfl | h
    · exact Nat.le_max_left ..
    · exact Nat.le_trans (ih h) (Nat.le_max_right ..)

theorem nesting_pos_of_isConditional {e : Expr} (h : e.isConditional = true) : 0 < e.nesting := by
  cases e with
  | conditional => simp only [nesting]; omega
  | _ => cases h

end Expr

/-! ## Rendering -/

/-- What a reader sees of a token: its kind and its text. -/
abbrev Token.Face := Token.Kind × String

def Token.face (t : Token) : Token.Face :=
  (t.kind, t.value)

def BinaryOp.kind : BinaryOp → Token.Kind
  | .assign => .assign
  | .calculate .add => .plus
  | .calculate .sub => .minus
  | .calculate .mul => .star
  | .calculate .div => .slash
  | .calculate .eq => .equal
  | .calculate .gt => .greater
  | .calculate .lt => .less
  | .calculate .and => .and
  | .calculate .or => .or

@[simp] theorem BinaryOp.ofKind?_kind (op : BinaryOp) : ofKind? op.kind = some op := by
  rcases op with _ | op
  · rfl
  · cases op <;> rfl

structure Rendering where
  /-- The texts of literals. -/
  text : Literal → String
  readFrom {value : Literal} : value.Spelled → value.ReadFrom (text value)
  /-- Whether a terminator follows the last item too. -/
  closed : Bool
  /-- Whether a terminator stands between the branches of a conditional. -/
  parted : Bool

namespace Rendering

def literal (r : Rendering) : Literal → Token.Face
  | .null => (.kwNull, "null")
  | .boolean true => (.kwTrue, "true")
  | .boolean false => (.kwFalse, "false")
  | .integer n => (.number, r.text (.integer n))
  | .float x => (.number, r.text (.float x))
  | .string s => (.string, r.text (.string s))

def enclosed (faces : List Token.Face) : List Token.Face :=
  (.leftParen, "(") :: (faces ++ [(.rightParen, ")")])

def separator (mark : Token.Face) (closed : Bool) (after : List (List Token.Face)) :
    List Token.Face :=
  if after.isEmpty && !closed then [] else [mark]

/-- Groups of tokens with a mark between them, and after the last if they are closed. -/
def joined (mark : Token.Face) (closed : Bool) : List (List Token.Face) → List Token.Face
  | [] => []
  | faces :: rest => faces ++ (separator mark closed rest ++ joined mark closed rest)

def listed (groups : List (List Token.Face)) : List Token.Face :=
  enclosed (joined (.comma, ",") false groups)

def itemized (r : Rendering) (items : List (List Token.Face)) : List Token.Face :=
  joined (.terminator, ";") r.closed items

def tag : Option String → List Token.Face
  | none => []
  | some text => [(.tag, text)]

def params (names : List String) : List Token.Face :=
  listed (names.map fun name => [(.name, name)])

mutual

def render (r : Rendering) : Expr → List Token.Face
  | .ident _ name => [(.name, name)]
  | .symbol _ name => [(.symbol, ":" ++ name)]
  | .literal _ value => [r.literal value]
  | .binary _ op left right =>
    enclosed (r.render left) ++ (op.kind, op.spelling) :: enclosed (r.render right)
  | .async _ inner => (.kwAsync, "async") :: enclosed (r.render inner)
  | .await _ inner => (.kwAwait, "await") :: enclosed (r.render inner)
  | .call _ callee args => r.render callee ++ listed (r.renderAll args)
  | .argument _ keyword value => r.renderKeyword keyword ++ r.render value
  | .block _ items =>
    (.leftBrace, "\x7b") :: (r.itemized (r.renderAll items) ++ [(.rightBrace, "\x7d")])
  | .lambda _ names body => (.kwLambda, "lambda") :: (params names ++ r.render body)
  | .definition _ name names body text =>
    tag text ++ (.kwFn, "fn") :: (.name, name) :: (params names ++ r.render body)
  | .conditional _ condition consequence alternative =>
    (.kwIf, "if") ::
      (enclosed (r.render condition) ++ (r.render consequence ++ r.renderElse alternative))

def renderAll (r : Rendering) : List Expr → List (List Token.Face)
  | [] => []
  | e :: rest => r.render e :: r.renderAll rest

def renderKeyword (r : Rendering) : Option Expr → List Token.Face
  | none => []
  | some e => r.render e

def renderElse (r : Rendering) : Option Expr → List Token.Face
  | none => []
  | some e =>
    (if r.parted then [(.terminator, ";")] else []) ++
      if e.isConditional then (.kwElif, "elif") :: (r.render e).tail
      else (.kwElse, "else") :: r.render e

end

@[simp] theorem renderAll_eq (r : Rendering) (es : List Expr) :
    r.renderAll es = es.map r.render := by
  induction es with
  | nil => rfl
  | cons e rest ih => rw [renderAll, ih, List.map_cons]

end Rendering

/-! ## What follows an expression -/

namespace Parser

def Stops (rest : List Token) : Prop :=
  ∀ t ∈ rest.head?, BinaryOp.ofKind? t.kind = none

/-- What may follow an expression: the end, a token that closes what the expression stands in, or
a terminator that does not join two branches of a conditional. -/
def Follows : List Token → Prop
  | [] => True
  | t :: rest => t.kind = .rightParen ∨ t.kind = .comma ∨ t.kind = .rightBrace ∨
      t.kind = .terminator ∧ ∀ next ∈ rest.head?, continuesIf next.kind = false

theorem Follows.stops {rest : List Token} (h : Follows rest) : Stops rest := by
  intro t ht
  cases rest with
  | nil => cases ht
  | cons first rest =>
    cases ht
    rcases h with h | h | h | ⟨h, -⟩ <;> rw [h] <;> rfl

/-- What follows an expression begins none. -/
theorem Follows.not_startsExpression {t : Token} {rest : List Token} (h : Follows (t :: rest)) :
    t.kind.startsExpression = false := by
  rcases h with h | h | h | ⟨h, -⟩ <;> rw [h] <;> rfl

theorem Follows.eat?_leftParen {rest : List Token} (h : Follows rest) :
    eat? .leftParen rest = none := by
  cases rest with
  | nil => rfl
  | cons t rest => rcases h with h | h | h | ⟨h, -⟩ <;> simp [eat?, h]

/-- What follows a conditional does not continue it. -/
theorem Follows.joinBranches {rest : List Token} (h : Follows rest) :
    joinBranches rest = rest ∧ ∀ t ∈ rest.head?, continuesIf t.kind = false := by
  match rest with
  | [] => simp [Parser.joinBranches]
  | [t] => rcases h with h | h | h | ⟨h, -⟩ <;> simp [Parser.joinBranches, continuesIf, h]
  | t :: next :: rest =>
    rcases h with h | h | h | ⟨h, hnext⟩
    · simp [Parser.joinBranches, continuesIf, h]
    · simp [Parser.joinBranches, continuesIf, h]
    · simp [Parser.joinBranches, continuesIf, h]
    · have := hnext next rfl
      simp [Parser.joinBranches, h, this]
      rfl

/-! ## Readers -/

variable {α β γ : Type}

/-- A reader gives something back from tokens with the given faces, whatever follows them of what
may follow. -/
def Recovers (read : Reader α) (faces : List Token.Face) (follow : List Token → Prop)
    (P : α → Prop) : Prop :=
  ∀ tokens rest, tokens.map Token.face = faces → follow rest →
    ∃ a, read (tokens ++ rest) = .ok (a, rest) ∧ P a

def Anything : List Token → Prop := fun _ => True

def Opens (faces : List Token.Face) : Prop :=
  ∃ f ∈ faces.head?, f.1.startsExpression = true

namespace Recovers

variable {read : Reader α} {faces : List Token.Face} {follow follow' : List Token → Prop}
  {P : α → Prop} {Q : β → Prop} {next : Parsed α → Except ParseError (Parsed β)}

theorem imp {P' : α → Prop} (h : Recovers read faces follow P)
    (hfollow : ∀ rest, follow' rest → follow rest) (hP : ∀ a, P a → P' a) :
    Recovers read faces follow' P' := by
  intro tokens rest htokens hrest
  obtain ⟨a, ha, hp⟩ := h tokens rest htokens (hfollow rest hrest)
  exact ⟨a, ha, hP a hp⟩

/-- Two readers one after the other. -/
theorem bind {f g : List Token.Face} (h : Recovers read f follow P)
    (hnext : ∀ a, P a → Recovers (fun tokens => next (a, tokens)) g follow' Q)
    (hfollow : ∀ tokens rest, tokens.map Token.face = g → follow' rest →
      follow (tokens ++ rest)) :
    Recovers (fun tokens => read tokens >>= next) (f ++ g) follow' Q := by
  intro tokens rest htokens hrest
  obtain ⟨first, second, rfl, hfirst, hsecond⟩ := List.map_eq_append_iff.mp htokens
  obtain ⟨a, ha, hp⟩ := h first (second ++ rest) hfirst (hfollow _ _ hsecond hrest)
  obtain ⟨b, hb, hq⟩ := hnext a hp second rest hsecond hrest
  refine ⟨b, ?_, hq⟩
  dsimp only
  rw [List.append_assoc, ha]
  exact hb

/-- The last reader of several. -/
theorem last (h : Recovers read faces follow P)
    (hnext : ∀ a rest, P a → ∃ b, next (a, rest) = .ok (b, rest) ∧ Q b) :
    Recovers (fun tokens => read tokens >>= next) faces follow Q := by
  intro tokens rest htokens hrest
  obtain ⟨a, ha, hp⟩ := h tokens rest htokens hrest
  obtain ⟨b, hb, hq⟩ := hnext a rest hp
  refine ⟨b, ?_, hq⟩
  dsimp only
  rw [ha]
  exact hb

/-- A reader of what follows a first token. -/
theorem cons (read : Token → Reader α) {whole : Reader α} {f : Token.Face}
    (h : ∀ t, t.face = f → Recovers (read t) faces follow P)
    (hwhole : ∀ t, t.face = f → ∀ tokens, whole (t :: tokens) = read t tokens) :
    Recovers whole (f :: faces) follow P := by
  intro tokens rest htokens hrest
  obtain ⟨t, others, rfl, ht, hothers⟩ := List.map_eq_cons_iff.mp htokens
  obtain ⟨a, ha, hp⟩ := h t ht others rest hothers hrest
  exact ⟨a, (hwhole t ht _).trans ha, hp⟩

/-- Terminators that are not there are skipped. -/
theorem skip (h : Recovers read faces follow P)
    (hfirst : ∃ f ∈ faces.head?, f.1 ≠ .terminator) :
    Recovers (fun tokens => read (skipTerminators tokens)) faces follow P := by
  intro tokens rest htokens hrest
  obtain ⟨f, hf, hne⟩ := hfirst
  cases faces with
  | nil => cases hf
  | cons f' faces =>
    cases hf
    obtain ⟨t, others, rfl, ht, -⟩ := List.map_eq_cons_iff.mp htokens
    obtain ⟨a, ha, hp⟩ := h _ rest htokens hrest
    refine ⟨a, ?_, hp⟩
    have hkind : t.kind ≠ .terminator := by
      rw [← ht] at hne
      exact hne
    simpa [skipTerminators, hkind] using ha

end Recovers

/-- The first token that begins an expression. -/
theorem Opens.of_map {faces : List Token.Face} {tokens : List Token} (h : Opens faces)
    (htokens : tokens.map Token.face = faces) :
    ∃ t others, tokens = t :: others ∧ t.kind.startsExpression = true := by
  obtain ⟨f, hf, hstarts⟩ := h
  cases faces with
  | nil => cases hf
  | cons f' faces =>
    cases hf
    obtain ⟨t, others, rfl, ht, -⟩ := List.map_eq_cons_iff.mp htokens
    refine ⟨t, others, rfl, ?_⟩
    rw [← ht] at hstarts
    exact hstarts

theorem continuesIf_of_startsExpression {kind : Token.Kind} (h : kind.startsExpression = true) :
    continuesIf kind = false := by
  cases kind <;> first | rfl | cases h

theorem skipTerminators_cons {t : Token} {tokens : List Token} (h : t.kind ≠ .terminator) :
    skipTerminators (t :: tokens) = t :: tokens := by
  simp [skipTerminators, h]

theorem Opens.ne_terminator {faces : List Token.Face} (h : Opens faces) :
    ∃ f ∈ faces.head?, f.1 ≠ .terminator := by
  obtain ⟨f, hf, hstarts⟩ := h
  refine ⟨f, hf, ?_⟩
  intro hkind
  rw [hkind] at hstarts
  cases hstarts

section Read

variable {ctx : Context} {op : Reader Expr} {faces : List Token.Face} {P : Expr → Prop}

theorem recovers_expect (kind : Token.Kind) (value expected : String) :
    Recovers (expect ctx kind expected) [(kind, value)] Anything
      fun t => t.face = (kind, value) := by
  intro tokens rest htokens _
  obtain ⟨t, others, rfl, ht, hothers⟩ := List.map_eq_cons_iff.mp htokens
  cases List.map_eq_nil_iff.mp hothers
  have hkind : t.kind = kind := congrArg Prod.fst ht
  exact ⟨t, by simp [expect, hkind], ht⟩

/-- An operand without an operator after it is an expression. -/
theorem recovers_expression {F : List Token → Prop} (h : Recovers op faces F P)
    (hstops : ∀ rest, F rest → Stops rest) :
    Recovers (expression ctx op) faces F P := by
  intro tokens rest htokens hrest
  obtain ⟨e, he, hp⟩ := h tokens rest htokens hrest
  refine ⟨e, ?_, hp⟩
  have hend : chain ctx op rest.length [] e rest = .ok (e, rest) := by
    cases rest with
    | nil => rfl
    | cons t rest =>
      have := hstops _ hrest t rfl
      simp [chain, chainRound, this, Waiting.closeAll]
  simp only [expression, he, bind, Except.bind]
  exact hend

/-- Two operands with an operator between them. -/
theorem recovers_binary {faces' : List Token.Face} {P' Q : Expr → Prop} {o : BinaryOp}
    {spelling : String} (hleft : Recovers op faces Anything P)
    (hright : Recovers op faces' Anything P')
    (hbinary : ∀ left right, P left → P' right → Q (.binary left.loc o left right)) :
    Recovers (expression ctx op) (faces ++ (o.kind, spelling) :: faces') Follows Q := by
  intro tokens rest htokens hrest
  obtain ⟨first, others, rfl, hfirst, hothers⟩ := List.map_eq_append_iff.mp htokens
  obtain ⟨t, second, rfl, ht, hsecond⟩ := List.map_eq_cons_iff.mp hothers
  obtain ⟨left, hl, hpl⟩ := hleft first (t :: second ++ rest) hfirst trivial
  obtain ⟨right, hr, hpr⟩ := hright second rest hsecond trivial
  refine ⟨_, ?_, hbinary left right hpl hpr⟩
  have hkind : t.kind = o.kind := congrArg Prod.fst ht
  have hend (fuel : Nat) : chain ctx op fuel [⟨left, o⟩] right rest =
      .ok (.binary left.loc o left right, rest) := by
    cases fuel with
    | zero => rfl
    | succ fuel =>
      cases rest with
      | nil => rfl
      | cons t rest =>
        have := hrest.stops t rfl
        simp [chain, chainRound, this, Waiting.closeAll, Waiting.close]
  simp only [expression, List.append_assoc, hl, bind, Except.bind]
  simp only [List.cons_append, List.length_cons, chain, chainRound, hkind, BinaryOp.ofKind?_kind,
    Waiting.push, hr, bind, Except.bind]
  exact hend _

/-- An expression in parentheses is an operand. -/
theorem recovers_enclosed (h : Recovers (expression ctx op) faces Follows P)
    (hopens : Opens faces) :
    Recovers (form ctx op) (Rendering.enclosed faces) Anything P := by
  refine .cons (fun _ => parenthesized ctx op) (fun t _ => ?_) fun t ht tokens => ?_
  · refine Recovers.bind (h.skip hopens.ne_terminator) (fun e he => ?_) ?_
    · refine Recovers.last ((recovers_expect .rightParen ")" _).skip (by simp)) fun _ rest _ => ?_
      exact ⟨e, rfl, he⟩
    · intro tokens rest htokens _
      obtain ⟨t, others, rfl, ht, -⟩ := List.map_eq_cons_iff.mp htokens
      exact .inl (congrArg Prod.fst ht)
  · have hkind : t.kind = .leftParen := congrArg Prod.fst ht
    simp only [form, hkind]

/-- The items that follow an item do not continue it. -/
theorem follows_joined {mark : Token.Face} {closed : Bool} {groups : List (List Token.Face)}
    {tokens rest : List Token} (hmark : mark.1 = .comma ∨ mark.1 = .terminator)
    (hopens : ∀ g ∈ groups, Opens g) (hrest : Follows rest)
    (htokens : tokens.map Token.face = Rendering.separator mark closed groups ++
      Rendering.joined mark closed groups) :
    Follows (tokens ++ rest) := by
  have after (t : Token) (others : List Token) (ht : t.face = mark)
      (hnext : ∀ next ∈ (others ++ rest).head?, continuesIf next.kind = false) :
      Follows (t :: others ++ rest) := by
    have hkind : t.kind = mark.1 := congrArg Prod.fst ht
    rcases hmark with h | h
    · exact .inr (.inl (hkind.trans h))
    · exact .inr (.inr (.inr ⟨hkind.trans h, hnext⟩))
  unfold Rendering.separator at htokens
  cases groups with
  | nil =>
    cases closed with
    | false =>
      cases List.map_eq_nil_iff.mp htokens
      exact hrest
    | true =>
      obtain ⟨t, others, rfl, ht, hothers⟩ := List.map_eq_cons_iff.mp htokens
      cases List.map_eq_nil_iff.mp hothers
      exact after t [] ht hrest.joinBranches.2
  | cons g groups =>
    obtain ⟨t, others, rfl, ht, hothers⟩ := List.map_eq_cons_iff.mp htokens
    refine after t others ht fun next hnext => ?_
    change others.map Token.face = g ++ _ at hothers
    obtain ⟨first, second, rfl, hfirst, -⟩ := List.map_eq_append_iff.mp hothers
    obtain ⟨t', others', rfl, hstarts⟩ := (hopens g (by simp)).of_map hfirst
    cases hnext
    exact continuesIf_of_startsExpression hstarts

/-- The first of some items, what comes after it, and the token that closes them all. -/
theorem parts_of_joined {mark close : Token.Face} {closed : Bool} {group : List Token.Face}
    {groups : List (List Token.Face)} {tokens : List Token}
    (h : tokens.map Token.face = Rendering.joined mark closed (group :: groups) ++ [close]) :
    ∃ first others c, tokens = first ++ (others ++ [c]) ∧ first.map Token.face = group ∧
      others.map Token.face = Rendering.separator mark closed groups ++
        Rendering.joined mark closed groups ∧ c.face = close := by
  rw [Rendering.joined, List.append_assoc] at h
  obtain ⟨first, second, rfl, hfirst, hsecond⟩ := List.map_eq_append_iff.mp h
  obtain ⟨others, last, rfl, hothers, hlast⟩ := List.map_eq_append_iff.mp hsecond
  obtain ⟨c, rfl, hc⟩ := List.map_eq_singleton_iff.mp hlast
  exact ⟨first, others, c, rfl, hfirst, hothers, hc⟩

/-- Items between commas, each read knowing those before it. -/
theorem recovers_separated {item : List α → Reader α} {expected : String} {elements : List β}
    {group : β → List Token.Face} {view : α → γ} {key : β → γ}
    (hitem : ∀ done b todo acc, elements = done ++ b :: todo → acc.map view = done.map key →
      Recovers (item acc) (group b) Follows fun a => view a = key b)
    (hopens : ∀ b ∈ elements, Opens (group b)) {done todo : List β} {acc : List α} {fuel : Nat}
    (helements : elements = done ++ todo) (hacc : acc.map view = done.map key)
    (hfuel : todo.length < fuel) :
    Recovers (separated ctx .rightParen expected item fuel acc)
      (Rendering.joined (.comma, ",") false (todo.map group) ++ [(.rightParen, ")")]) Anything
      fun items => items.map view = elements.map key := by
  induction todo generalizing done acc fuel with
  | nil =>
    obtain ⟨fuel, rfl⟩ := Nat.exists_eq_succ_of_ne_zero (Nat.ne_of_gt hfuel)
    intro tokens rest htokens _
    obtain ⟨t, others, rfl, ht, hothers⟩ := List.map_eq_cons_iff.mp htokens
    cases List.map_eq_nil_iff.mp hothers
    have hkind : t.kind = .rightParen := congrArg Prod.fst ht
    refine ⟨acc, by simp [separated, separatedRound, skipTerminators, eat?, hkind], ?_⟩
    simpa [helements] using hacc
  | cons b todo ih =>
    obtain ⟨fuel, rfl⟩ := Nat.exists_eq_succ_of_ne_zero (Nat.ne_of_gt (Nat.zero_lt_of_lt hfuel))
    intro tokens rest htokens _
    obtain ⟨first, third, c, rfl, hfirst, hthird, hc⟩ := parts_of_joined htokens
    have hclose : c.kind = .rightParen := congrArg Prod.fst hc
    have hopens' : ∀ g ∈ todo.map group, Opens g :=
      List.forall_mem_map.mpr fun b' hb' => hopens b' (by simp [helements, hb'])
    have hfollows : Follows (third ++ c :: rest) :=
      follows_joined (.inl rfl) hopens' (.inl hclose) hthird
    obtain ⟨x, hx, hview⟩ := hitem done b todo acc helements hacc first _ hfirst hfollows
    obtain ⟨t, others, rfl, hstarts⟩ := (hopens b (by simp [helements])).of_map hfirst
    have hacc' : (acc ++ [x]).map view = (done ++ [b]).map key := by simp [hacc, hview]
    have hne : t.kind ≠ .terminator ∧ t.kind ≠ .rightParen := by
      constructor <;> intro h <;> rw [h] at hstarts <;> cases hstarts
    simp only [List.cons_append, List.append_assoc, List.nil_append] at hx ⊢
    simp only [separated, separatedRound, skipTerminators_cons hne.1, eat?, if_neg hne.2, hx, bind,
      Except.bind]
    cases todo with
    | nil =>
      cases List.map_eq_nil_iff.mp hthird
      refine ⟨acc ++ [x], ?_, by simpa [helements] using hacc'⟩
      simp [skipTerminators, expect, hclose]
    | cons b' todo =>
      obtain ⟨m, fourth, rfl, hm, hfourth⟩ := List.map_eq_cons_iff.mp hthird
      have hcomma : m.kind = .comma := congrArg Prod.fst hm
      have helements' : elements = (done ++ [b]) ++ b' :: todo := by simp [helements]
      obtain ⟨items, hitems, hviews⟩ := ih helements' hacc' (Nat.lt_of_succ_lt_succ hfuel)
        (fourth ++ [c]) rest (by simpa [hc] using hfourth) trivial
      refine ⟨items, ?_, hviews⟩
      simpa [skipTerminators, eat?, hcomma] using hitems

/-- At least one token stands for each item. -/
theorem length_le_joined (mark : Token.Face) (closed : Bool) {groups : List (List Token.Face)}
    (h : ∀ g ∈ groups, Opens g) : groups.length ≤ (Rendering.joined mark closed groups).length := by
  induction groups with
  | nil => exact Nat.zero_le _
  | cons g groups ih =>
    rw [List.forall_mem_cons] at h
    obtain ⟨⟨f, hf, -⟩, h⟩ := h
    have hpos : 0 < g.length := List.length_pos_of_mem (List.mem_of_mem_head? hf)
    have := ih h
    simp only [Rendering.joined, List.length_cons, List.length_append]
    omega

/-- Elements between commas, in parentheses, after the opening one. -/
theorem recovers_delimited (group : β → List Token.Face) (view : α → γ) (key : β → γ)
    {item : List α → Reader α} {expected : String} {elements : List β}
    (hitem : ∀ done b todo acc, elements = done ++ b :: todo → acc.map view = done.map key →
      Recovers (item acc) (group b) Follows fun a => view a = key b)
    (hopens : ∀ b ∈ elements, Opens (group b)) :
    Recovers (delimited ctx .rightParen expected item)
      (Rendering.joined (.comma, ",") false (elements.map group) ++ [(.rightParen, ")")]) Anything
      fun items => items.map view = elements.map key := by
  intro tokens rest htokens hrest
  have hlength : elements.length ≤ tokens.length := by
    have := length_le_joined (.comma, ",") false (List.forall_mem_map.mpr hopens)
    have := congrArg List.length htokens
    simp only [List.length_map, List.length_append] at *
    omega
  have helements : elements = [] ++ elements := rfl
  refine recovers_separated hitem hopens helements rfl ?_ tokens rest htokens hrest
  simp only [List.length_append]
  omega

theorem recovers_parameters {names : List String} (hnames : names.Nodup) :
    Recovers (parameters ctx) (Rendering.params names) Anything (· = names) := by
  refine Recovers.bind (f := [(.leftParen, "(")]) (recovers_expect .leftParen "(" _)
    (fun _ _ => ?_) fun _ _ _ _ => trivial
  refine (recovers_delimited (fun name => [(.name, name)]) id id
    (fun seen name others acc helements hacc => ?_) fun name _ => ?_).imp (fun _ => id)
    fun _ => by simp
  · simp only [List.map_id] at hacc
    subst hacc
    refine Recovers.last ((recovers_expect .name name _).imp (fun _ _ => trivial) fun _ => id)
      fun t rest ht => ?_
    have hvalue : t.value = name := congrArg Prod.snd ht
    have hnew : name ∉ acc := by
      rw [helements, List.nodup_append] at hnames
      exact fun h => hnames.2.2 name h name (by simp) rfl
    exact ⟨name, by simp [hvalue, hnew], rfl⟩
  · exact ⟨(.name, name), rfl, rfl⟩

/-- After an item the terminator that is due is taken. -/
theorem endItem_separator (ctx : Context) (rest : List Token) {closed : Bool}
    {groups : List (List Token.Face)} {tokens : List Token} {close : Token}
    (hclose : close.kind = .rightBrace)
    (htokens : tokens.map Token.face = Rendering.separator (.terminator, ";") closed groups ++
      Rendering.joined (.terminator, ";") closed groups) :
    ∃ left, endItem ctx (tokens ++ close :: rest) = .ok (left ++ close :: rest) ∧
      left.map Token.face = Rendering.joined (.terminator, ";") closed groups := by
  unfold Rendering.separator at htokens
  split at htokens
  · next hempty =>
    obtain ⟨hgroups, hclosed⟩ : groups = [] ∧ closed = false := by simpa using hempty
    subst hgroups
    cases List.map_eq_nil_iff.mp htokens
    exact ⟨[], by simp [endItem, eat?, hclose], rfl⟩
  · obtain ⟨t, left, rfl, ht, hleft⟩ := List.map_eq_cons_iff.mp htokens
    have hkind : t.kind = .terminator := congrArg Prod.fst ht
    exact ⟨left, by simp [endItem, eat?, expect, hkind, Except.map], hleft⟩

/-- The items of a block. -/
theorem recovers_blockItems {r : Rendering} {items : List Expr} {fuel : Nat}
    (hitem : ∀ e ∈ items, Recovers (expression ctx op) (r.render e) Follows e.Alike)
    (hopens : ∀ e ∈ items, Opens (r.render e)) (hfuel : items.length < fuel) :
    Recovers (blockItems ctx op fuel) (r.itemized (items.map r.render) ++ [(.rightBrace, "\x7d")])
      Anything fun es => es.map Expr.bare = items.map Expr.bare := by
  induction items generalizing fuel with
  | nil =>
    obtain ⟨fuel, rfl⟩ := Nat.exists_eq_succ_of_ne_zero (Nat.ne_of_gt hfuel)
    intro tokens rest htokens _
    obtain ⟨t, others, rfl, ht, hothers⟩ := List.map_eq_cons_iff.mp htokens
    cases List.map_eq_nil_iff.mp hothers
    have hkind : t.kind = .rightBrace := congrArg Prod.fst ht
    exact ⟨[], by simp [blockItems, blockRound, skipTerminators, hkind], rfl⟩
  | cons e items ih =>
    obtain ⟨fuel, rfl⟩ := Nat.exists_eq_succ_of_ne_zero (Nat.ne_of_gt (Nat.zero_lt_of_lt hfuel))
    rw [List.forall_mem_cons] at hitem hopens
    intro tokens rest htokens _
    obtain ⟨first, third, c, rfl, hfirst, hthird, hc⟩ := parts_of_joined htokens
    have hclose : c.kind = .rightBrace := congrArg Prod.fst hc
    have hfollows : Follows (third ++ c :: rest) := follows_joined (.inr rfl)
      (List.forall_mem_map.mpr hopens.2) (.inr (.inr (.inl hclose))) hthird
    obtain ⟨x, hx, halike⟩ := hitem.1 first _ hfirst hfollows
    obtain ⟨left, hend, hleft⟩ := endItem_separator ctx rest hclose hthird
    obtain ⟨es, hes, halikes⟩ := ih hitem.2 hopens.2 (by simpa using hfuel) (left ++ [c]) rest
      (by simp [hleft, hc, Rendering.itemized]) trivial
    obtain ⟨t, others, rfl, hstarts⟩ := hopens.1.of_map hfirst
    have hne : t.kind ≠ .terminator ∧ t.kind ≠ .rightBrace := by
      constructor <;> intro h <;> rw [h] at hstarts <;> cases hstarts
    refine ⟨x :: es, ?_, congrArg₂ List.cons halike halikes⟩
    simp only [List.cons_append, List.append_assoc, List.nil_append] at hx hes ⊢
    simp only [blockItems, blockRound, skipTerminators_cons hne.1, if_neg hne.2, hx, hend, hes,
      bind, Except.bind]

/-- A block. -/
theorem recovers_block {r : Rendering} {loc : Location} {items : List Expr} (hitems : items ≠ [])
    (hitem : ∀ e ∈ items, Recovers (expression ctx op) (r.render e) Follows e.Alike)
    (hopens : ∀ e ∈ items, Opens (r.render e)) :
    Recovers (block ctx op) (r.render (.block loc items)) Anything
      (Expr.block loc items).Alike := by
  rw [Rendering.render, Rendering.renderAll_eq]
  refine Recovers.bind (f := [(.leftBrace, "\x7b")])
    (g := r.itemized (items.map r.render) ++ [(.rightBrace, "\x7d")])
    (recovers_expect .leftBrace _ _) (fun brace _ => ?_) fun _ _ _ _ => trivial
  intro tokens rest htokens _
  have hlength : items.length ≤ tokens.length := by
    have := length_le_joined (.terminator, ";") r.closed (List.forall_mem_map.mpr hopens)
    have := congrArg List.length htokens
    simp only [List.length_map, List.length_append, Rendering.itemized] at *
    omega
  have hfuel : items.length < (tokens ++ rest).length + 1 := by
    simp only [List.length_append]
    omega
  obtain ⟨es, hes, halikes⟩ := recovers_blockItems hitem hopens hfuel tokens rest htokens trivial
  have hne : es ≠ [] := by
    rintro rfl
    exact hitems (List.map_eq_nil_iff.mp halikes.symm)
  refine ⟨.block (ctx.loc brace) es, ?_, ?_⟩
  · simp only [hes, bind, Except.bind, List.isEmpty_iff, if_neg hne]
  · simp [Expr.Alike, Expr.bare, halikes]

/-- An argument that no keyword begins. -/
theorem recovers_positional {faces : List Token.Face} {e : Expr} {loc : Location}
    (h : Recovers (expression ctx op) faces Follows e.Alike)
    (hkeyword : ∀ tokens rest, tokens.map Token.face = faces → Follows rest →
      startsKeyword (tokens ++ rest) = false) :
    Recovers (argument ctx op) faces Follows (Expr.argument loc none e).Alike := by
  intro tokens rest htokens hrest
  obtain ⟨value, hvalue, halike⟩ := h tokens rest htokens hrest
  have hstarts := hkeyword tokens rest htokens hrest
  refine ⟨value.positional, ?_, ?_⟩
  · unfold argument
    split
    · simp [hstarts, hvalue, bind, Except.bind]
    · next heq => simp [heq ▸ hvalue, bind, Except.bind]
  · have : value.bare = e.bare := halike
    simp [Expr.Alike, Expr.positional, Expr.bare, Expr.bareOption, this]

/-- An argument after its keyword. -/
theorem recovers_keyword {faces : List Token.Face} {e : Expr} {loc loc' : Location} {name : String}
    (h : Recovers (expression ctx op) faces Follows e.Alike) (hopens : Opens faces) :
    Recovers (argument ctx op) ((.symbol, ":" ++ name) :: faces) Follows
      (Expr.argument loc (some (.symbol loc' name)) e).Alike := by
  intro tokens rest htokens hrest
  obtain ⟨t, others, rfl, ht, hothers⟩ := List.map_eq_cons_iff.mp htokens
  obtain ⟨value, hvalue, halike⟩ := h others rest hothers hrest
  obtain ⟨second, others, rfl, hstarts⟩ := hopens.of_map hothers
  have hkind : t.kind = .symbol := congrArg Prod.fst ht
  have hname : symbolName t = name := by
    have htext : t.value = ":" ++ name := congrArg Prod.snd ht
    simp [symbolName, htext]
  refine ⟨.argument (ctx.loc t) (some (.symbol (ctx.loc t) name)) value, ?_, ?_⟩
  · simp only [List.cons_append] at hvalue ⊢
    simp [argument, startsKeyword, hkind, hstarts, hvalue, hname, bind, Except.bind]
  · have : value.bare = e.bare := halike
    simp [Expr.Alike, Expr.bare, Expr.bareOption, this]

/-- A call of a name. -/
theorem recovers_call {r : Rendering} {loc loc' : Location} {name : String} {args : List Expr}
    (hargs : ∀ a ∈ args, Recovers (argument ctx op) (r.render a) Follows a.Alike)
    (hopens : ∀ a ∈ args, Opens (r.render a)) :
    Recovers (form ctx op) (r.render (.call loc (.ident loc' name) args)) Anything
      (Expr.call loc (.ident loc' name) args).Alike := by
  refine .cons (nameOrCall ctx op) (fun t ht => ?_) fun t ht tokens => ?_
  · refine .cons (fun _ tokens =>
      delimited ctx .rightParen "`,` or `)`" (fun _ => argument ctx op) tokens >>= fun read =>
        .ok (.call (ctx.loc t) (.ident (ctx.loc t) t.value) read.1, read.2)) (fun _ _ => ?_)
      fun paren hparen tokens => ?_
    · rw [Rendering.renderAll_eq]
      refine Recovers.last (recovers_delimited r.render Expr.bare Expr.bare
        (fun done a todo _ helements _ => hargs a (by simp [helements])) hopens)
        fun es rest hes => ⟨_, rfl, ?_⟩
      have hvalue : t.value = name := congrArg Prod.snd ht
      simp [Expr.Alike, Expr.bare, hes, hvalue]
    · have hkind : paren.kind = .leftParen := congrArg Prod.fst hparen
      simp [nameOrCall, eat?, hkind]
  · have hkind : t.kind = .name := congrArg Prod.fst ht
    simp only [form, hkind]

/-- A function definition after `fn`. -/
theorem recovers_definition {r : Rendering} {loc : Location} {name : String} {params : List String}
    {body : Expr} {tag : Option String} (hparams : params.Nodup) (start : Token)
    (hbody : Recovers (block ctx op) (r.render body) Anything body.Alike) :
    Recovers (definition ctx op start tag)
      ((.name, name) :: (Rendering.params params ++ r.render body)) Anything
      (Expr.definition loc name params body tag).Alike := by
  refine Recovers.bind (f := [(.name, name)])
    (g := Rendering.params params ++ r.render body) (recovers_expect .name name _)
    (fun t ht => ?_) fun _ _ _ _ => trivial
  refine Recovers.bind (recovers_parameters hparams) (fun names hnames => ?_)
    fun _ _ _ _ => trivial
  refine Recovers.last hbody fun e rest he => ⟨_, rfl, ?_⟩
  have hvalue : t.value = name := congrArg Prod.snd ht
  have halike : e.bare = body.bare := he
  simp [Expr.Alike, Expr.bare, halike, hvalue, hnames]

theorem recovers_lambda {r : Rendering} {loc : Location} {params : List String} {body : Expr}
    (hparams : params.Nodup) (word : Token)
    (hbody : Recovers (block ctx op) (r.render body) Anything body.Alike) :
    Recovers (lambda ctx op word) (Rendering.params params ++ r.render body) Anything
      (Expr.lambda loc params body).Alike := by
  refine Recovers.bind (recovers_parameters hparams) (fun names hnames => ?_)
    fun _ _ _ _ => trivial
  refine Recovers.last hbody fun e rest he => ⟨_, rfl, ?_⟩
  have halike : e.bare = body.bare := he
  simp [Expr.Alike, Expr.bare, halike, hnames]

/-- The word of an alternative, after the terminator that may part it from the branch before. -/
theorem joinBranches_parted (rest : List Token) {r : Rendering} {f : Token.Face}
    {faces : List Token.Face} {tokens : List Token} (hf : continuesIf f.1 = true)
    (htokens : tokens.map Token.face =
      (if r.parted then [(.terminator, ";")] else []) ++ f :: faces) :
    ∃ word others, word.face = f ∧ others.map Token.face = faces ∧
      joinBranches (tokens ++ rest) = word :: (others ++ rest) := by
  have word {tokens : List Token} (h : tokens.map Token.face = f :: faces) :
      ∃ t others, tokens = t :: others ∧ t.face = f ∧ others.map Token.face = faces ∧
        continuesIf t.kind = true := by
    obtain ⟨t, others, rfl, ht, hothers⟩ := List.map_eq_cons_iff.mp h
    have hkind : t.kind = f.1 := congrArg Prod.fst ht
    exact ⟨t, others, rfl, ht, hothers, hkind ▸ hf⟩
  split at htokens
  · obtain ⟨mark, others, rfl, hmark, hothers⟩ := List.map_eq_cons_iff.mp htokens
    obtain ⟨t, others, rfl, ht, hothers, hcontinues⟩ := word hothers
    have hkind : mark.kind = .terminator := congrArg Prod.fst hmark
    exact ⟨t, others, ht, hothers, by simp [joinBranches, hkind, hcontinues]⟩
  · obtain ⟨t, others, rfl, ht, hothers, hcontinues⟩ := word htokens
    refine ⟨t, others, ht, hothers, ?_⟩
    have hkind : t.kind ≠ .terminator := by
      intro h
      rw [h] at hcontinues
      cases hcontinues
    cases hrest : others ++ rest with
    | nil => simp [joinBranches, hrest]
    | cons second others' => simp [joinBranches, hrest, hkind]

/-- A conditional after its first word. -/
theorem recovers_conditional {r : Rendering} {loc : Location} {condition consequence : Expr}
    {alternative : Option Expr} {fuel : Nat} {word : Token}
    (hcondition : Recovers op (Rendering.enclosed (r.render condition)) Anything condition.Alike)
    (hconsequence : Recovers (block ctx op) (r.render consequence) Anything consequence.Alike)
    (hbrace : ∃ faces, r.render consequence = (.leftBrace, "\x7b") :: faces)
    (halternative : ∀ e, alternative = some e →
      (e.isConditional = true ∧
        ∀ word, Recovers (conditional ctx op fuel word) (r.render e).tail Follows e.Alike) ∨
      e.isConditional = false ∧ Recovers (block ctx op) (r.render e) Anything e.Alike) :
    Recovers (conditional ctx op (fuel + 1) word)
      (Rendering.enclosed (r.render condition) ++
        (r.render consequence ++ r.renderElse alternative)) Follows
      (Expr.conditional loc condition consequence alternative).Alike := by
  refine Recovers.bind (recovers_expression (F := Stops)
    (hcondition.imp (fun _ _ => trivial) fun _ => id) fun _ => id) (fun c hc => ?_) ?_
  · refine Recovers.bind hconsequence (fun t ht => ?_) fun _ _ _ _ => trivial
    have whole {a : Option Expr} (ha : Expr.bareOption a = Expr.bareOption alternative) :
        (Expr.conditional loc condition consequence alternative).Alike
          (.conditional (ctx.loc word) c t a) := by
      have hparts : c.bare = condition.bare ∧ t.bare = consequence.bare := ⟨hc, ht⟩
      simp [Expr.Alike, Expr.bare, hparts, ha]
    intro tokens rest htokens hrest
    cases alternative with
    | none =>
      cases List.map_eq_nil_iff.mp htokens
      obtain ⟨hjoin, hend⟩ := hrest.joinBranches
      refine ⟨.conditional (ctx.loc word) c t none, ?_, whole rfl⟩
      dsimp only
      rw [List.nil_append, hjoin]
      cases rest with
      | nil => rfl
      | cons next rest =>
        have hnext : next.kind ≠ .kwElif ∧ next.kind ≠ .kwElse := by
          simpa [continuesIf] using hend next rfl
        simp [hnext]
    | some e =>
      rw [Rendering.renderElse] at htokens
      rcases halternative e rfl with ⟨hform, he⟩ | ⟨hform, he⟩
      · rw [hform, if_pos rfl] at htokens
        obtain ⟨elif, others, helif, hothers, hjoin⟩ :=
          joinBranches_parted rest rfl htokens
        obtain ⟨a, ha, halike⟩ := he elif others rest hothers hrest
        have hkind : elif.kind = .kwElif := congrArg Prod.fst helif
        refine ⟨.conditional (ctx.loc word) c t (some a), ?_, whole (congrArg some halike)⟩
        simp [hjoin, hkind, ha, bind, Except.bind]
      · rw [hform, if_neg Bool.false_ne_true] at htokens
        obtain ⟨else_, others, helse, hothers, hjoin⟩ :=
          joinBranches_parted rest rfl htokens
        obtain ⟨a, ha, halike⟩ := he others rest hothers trivial
        have hkind : else_.kind = .kwElse := congrArg Prod.fst helse
        refine ⟨.conditional (ctx.loc word) c t (some a), ?_, whole (congrArg some halike)⟩
        simp [hjoin, hkind, ha, bind, Except.bind]
  · intro tokens rest htokens _ t ht
    obtain ⟨faces, hfaces⟩ := hbrace
    rw [hfaces] at htokens
    obtain ⟨brace, others, rfl, hb, -⟩ := List.map_eq_cons_iff.mp htokens
    cases ht
    have hkind : t.kind = .leftBrace := congrArg Prod.fst hb
    rw [hkind]
    rfl

/-- A literal from its token. -/
theorem recovers_literal {r : Rendering} {loc : Location} {value : Literal} (h : value.Spelled) :
    Recovers (form ctx op) [r.literal value] Anything (Expr.literal loc value).Alike := by
  have read := r.readFrom h
  refine .cons (fun t tokens => .ok (.literal (ctx.loc t) value, tokens))
    (fun t _ tokens rest htokens _ => ?_) fun t ht tokens => ?_
  · cases List.map_eq_nil_iff.mp htokens
    exact ⟨_, rfl, rfl⟩
  · match value with
    | .null | .boolean true | .boolean false =>
      have hkind := congrArg Prod.fst ht
      dsimp only [Token.face, Rendering.literal] at hkind
      simp only [form, hkind]
    | .integer n =>
      have hkind : t.kind = .number := congrArg Prod.fst ht
      have hvalue : t.value = r.text (.integer n) := congrArg Prod.snd ht
      have hnumber : Literal.ofNumber? (r.text (.integer n)) = some (.integer n) := read
      simp only [form, hkind, number, hvalue, hnumber]
    | .float x =>
      have hkind : t.kind = .number := congrArg Prod.fst ht
      have hvalue : t.value = r.text (.float x) := congrArg Prod.snd ht
      have hnumber : Literal.ofNumber? (r.text (.float x)) = some (.float x) := read
      simp only [form, hkind, number, hvalue, hnumber]
    | .string s =>
      have hkind : t.kind = .string := congrArg Prod.fst ht
      have hvalue : t.value = r.text (.string s) := congrArg Prod.snd ht
      have hstring : Text.unquote (r.text (.string s)) = s := read
      simp only [form, hkind, hvalue, hstring]

end Read

/-! ## Expressions of the grammar -/

section Shaped

variable {ctx : Context} {r : Rendering} {e : Expr}

/-- The first token of an expression. Only a symbol begins with the mark of a keyword. -/
theorem render_eq_cons (h : e.Shaped .operand) :
    ∃ f faces, r.render e = f :: faces ∧ f.1.startsExpression = true ∧
      (f.1 = .symbol → faces = []) := by
  cases h with
  | literal =>
    refine ⟨_, _, rfl, ?_, ?_⟩
    · rename_i value _
      cases value with
      | boolean b => cases b <;> rfl
      | _ => rfl
    · exact fun _ => rfl
  | definition =>
    rename_i tag _ _
    cases tag <;> exact ⟨_, _, rfl, rfl, nofun⟩
  | symbol => exact ⟨_, _, rfl, rfl, fun _ => rfl⟩
  | _ => exact ⟨_, _, rfl, rfl, nofun⟩

theorem opens_render (h : e.Shaped .operand) : Opens (r.render e) := by
  obtain ⟨f, faces, heq, hstarts, -⟩ := render_eq_cons (r := r) h
  exact ⟨f, by rw [heq]; rfl, hstarts⟩

theorem opens_render_argument (h : e.Shaped .argument) : Opens (r.render e) := by
  cases h with
  | positional hvalue =>
    rw [Rendering.render, Rendering.renderKeyword, List.nil_append]
    exact opens_render hvalue
  | keyword => exact ⟨_, rfl, rfl⟩

/-- No keyword begins an argument that is an expression. -/
theorem startsKeyword_render (h : e.Shaped .operand) {tokens rest : List Token}
    (htokens : tokens.map Token.face = r.render e) (hrest : Follows rest) :
    startsKeyword (tokens ++ rest) = false := by
  obtain ⟨f, faces, heq, -, hsymbol⟩ := render_eq_cons (r := r) h
  rw [heq] at htokens
  obtain ⟨t, others, rfl, ht, hothers⟩ := List.map_eq_cons_iff.mp htokens
  have hkind : t.kind = f.1 := congrArg Prod.fst ht
  by_cases hf : f.1 = .symbol
  · rw [hsymbol hf] at hothers
    cases List.map_eq_nil_iff.mp hothers
    cases rest with
    | nil => rfl
    | cons next rest => simp [startsKeyword, hrest.not_startsExpression]
  · cases hall : others ++ rest with
    | nil => simp [startsKeyword, hall]
    | cons next others' => simp [startsKeyword, hall, hkind, hf]

/-- An expression of the grammar is read back at its place if its operands do not nest too deep. -/
def Recovered (ctx : Context) (r : Rendering) (place : Expr.Place) (e : Expr) : Prop :=
  ∀ depth, e.nesting ≤ depth →
    match place with
    | .operand => Recovers (expression ctx (operand ctx depth)) (r.render e) Follows e.Alike
    | .argument => Recovers (argument ctx (operand ctx depth)) (r.render e) Follows e.Alike
    | .body => Recovers (block ctx (operand ctx depth)) (r.render e) Anything e.Alike

def BranchRecovered (ctx : Context) (r : Rendering) (e : Expr) : Prop :=
  e.isConditional = true → ∀ depth fuel word, e.nesting ≤ depth + 1 → (r.render e).length ≤ fuel →
    Recovers (conditional ctx (operand ctx depth) fuel word) (r.render e).tail Follows e.Alike

theorem BranchRecovered.of_other (hform : e.isConditional = false) : BranchRecovered ctx r e :=
  fun htrue => absurd (hform.symm.trans htrue) Bool.false_ne_true

/-- What is read as one operand. -/
theorem recovered_of_form (hpos : 0 < e.nesting) (h : ∀ depth, e.nesting ≤ depth + 1 →
      Recovers (form ctx (operand ctx depth)) (r.render e) Follows e.Alike) :
    Recovered ctx r .operand e := by
  intro depth hdepth
  obtain ⟨depth, rfl⟩ := Nat.exists_eq_succ_of_ne_zero (by omega : depth ≠ 0)
  have hread : Recovers (operand ctx (depth + 1)) (r.render e) Follows e.Alike := h depth hdepth
  exact recovers_expression hread fun _ => Follows.stops

/-- A conditional is read back with its first word if it is after it. -/
theorem recovered_of_branch (hform : e.isConditional = true) (h : BranchRecovered ctx r e) :
    Recovered ctx r .operand e ∧ BranchRecovered ctx r e := by
  obtain ⟨faces, hfaces⟩ : ∃ faces, r.render e = (.kwIf, "if") :: faces := by
    cases e <;> first | exact ⟨_, rfl⟩ | cases hform
  have hpos := Expr.nesting_pos_of_isConditional hform
  refine ⟨recovered_of_form hpos fun depth hdepth tokens rest htokens hrest => ?_, h⟩
  rw [hfaces] at htokens
  obtain ⟨t, others, rfl, ht, hothers⟩ := List.map_eq_cons_iff.mp htokens
  have hfuel : (r.render e).length ≤ (others ++ rest).length + 1 := by
    have := congrArg List.length hothers
    simp only [List.length_map] at this
    simp only [hfaces, List.length_cons, List.length_append]
    omega
  obtain ⟨e', he', halike⟩ :=
    h hform depth _ t hdepth hfuel others rest (by rw [hothers, hfaces]; rfl) hrest
  have hkind : t.kind = .kwIf := congrArg Prod.fst ht
  exact ⟨e', by simpa only [List.cons_append, form, hkind] using he', halike⟩

/-- An expression in parentheses is an operand of one more level. -/
theorem Recovered.enclosed {depth : Nat} (h : Recovered ctx r .operand e)
    (hshaped : e.Shaped .operand) (hdepth : 1 + e.nesting ≤ depth) :
    Recovers (operand ctx depth) (Rendering.enclosed (r.render e)) Anything e.Alike := by
  obtain ⟨depth, rfl⟩ := Nat.exists_eq_succ_of_ne_zero (by omega : depth ≠ 0)
  exact recovers_enclosed (h depth (by omega)) (opens_render hshaped)

/-- A word before an operand in parentheses. -/
theorem recovers_prefixed (make : Token → Expr → Expr) {inner : Expr} {f : Token.Face} {depth : Nat}
    (h : Recovers (operand ctx depth) (Rendering.enclosed (r.render inner)) Anything inner.Alike)
    (hform : ∀ t : Token, t.face = f → ∀ tokens, form ctx (operand ctx depth) (t :: tokens) = (do
      let (e, rest) ← operand ctx depth tokens
      .ok (make t e, rest)))
    (hmake : ∀ t e', inner.Alike e' → e.Alike (make t e')) :
    Recovers (form ctx (operand ctx depth)) (f :: Rendering.enclosed (r.render inner)) Follows
      e.Alike := by
  refine .cons _ (fun t _ => ?_) hform
  exact Recovers.last (h.imp (fun _ _ => trivial) fun _ => id) fun e' rest he' =>
    ⟨_, rfl, hmake t e' he'⟩

theorem recovered_ident {loc : Location} {name : String} :
    Recovered ctx r .operand (.ident loc name) := by
  refine recovered_of_form (by simp [Expr.nesting]) fun depth _ => ?_
  refine .cons (nameOrCall ctx (operand ctx depth)) (fun t ht tokens rest htokens hrest => ?_)
    fun t ht tokens => ?_
  · cases List.map_eq_nil_iff.mp htokens
    have hvalue : t.value = name := congrArg Prod.snd ht
    refine ⟨.ident (ctx.loc t) name, ?_, rfl⟩
    simp [nameOrCall, hrest.eat?_leftParen, hvalue]
  · have hkind : t.kind = .name := congrArg Prod.fst ht
    simp only [form, hkind]

theorem recovered_symbol {loc : Location} {name : String} :
    Recovered ctx r .operand (.symbol loc name) := by
  refine recovered_of_form (by simp [Expr.nesting]) fun depth _ => ?_
  refine .cons (fun t tokens => .ok (.symbol (ctx.loc t) (symbolName t), tokens))
    (fun t ht tokens rest htokens _ => ?_) fun t ht tokens => ?_
  · cases List.map_eq_nil_iff.mp htokens
    have hvalue : t.value = ":" ++ name := congrArg Prod.snd ht
    exact ⟨_, rfl, by simp [Expr.Alike, Expr.bare, symbolName, hvalue]⟩
  · have hkind : t.kind = .symbol := congrArg Prod.fst ht
    simp only [form, hkind]

theorem recovered_definition {loc : Location} {name : String} {params : List String} {body : Expr}
    {tag : Option String} (hparams : params.Nodup) (hbody : Recovered ctx r .body body) :
    Recovered ctx r .operand (.definition loc name params body tag) := by
  refine recovered_of_form (by simp only [Expr.nesting]; omega) fun depth hdepth => ?_
  have hread := hbody depth (by simp only [Expr.nesting] at hdepth; omega)
  have hdefinition (start : Token) : Recovers (definition ctx (operand ctx depth) start tag)
      ((.name, name) :: (Rendering.params params ++ r.render body)) Follows
      (Expr.definition loc name params body tag).Alike :=
    (recovers_definition hparams start hread).imp (fun _ _ => trivial) fun _ => id
  cases tag with
  | none =>
    refine .cons _ (fun t _ => hdefinition t) fun t ht tokens => ?_
    have hkind : t.kind = .kwFn := congrArg Prod.fst ht
    simp only [form, hkind]
  | some text =>
    refine .cons (tagged ctx (operand ctx depth)) (fun t ht => ?_) fun t ht tokens => ?_
    · have hvalue : t.value = text := congrArg Prod.snd ht
      unfold tagged
      rw [hvalue]
      exact Recovers.bind (f := [(.kwFn, "fn")]) ((recovers_expect .kwFn "fn" _).skip (by simp))
        (fun _ _ => hdefinition t) fun _ _ _ _ => trivial
    · have hkind : t.kind = .tag := congrArg Prod.fst ht
      simp only [form, hkind]

theorem recovered_lambda {loc : Location} {params : List String} {body : Expr}
    (hparams : params.Nodup) (hbody : Recovered ctx r .body body) :
    Recovered ctx r .operand (.lambda loc params body) := by
  refine recovered_of_form (by simp only [Expr.nesting]; omega) fun depth hdepth => ?_
  have hread := hbody depth (by simp only [Expr.nesting] at hdepth; omega)
  refine .cons _ (fun t _ => (recovers_lambda hparams t hread).imp (fun _ _ => trivial) fun _ => id)
    fun t ht tokens => ?_
  have hkind : t.kind = .kwLambda := congrArg Prod.fst ht
  simp only [form, hkind]

/-- A conditional whose parts are read back. -/
theorem branchRecovered {loc : Location} {condition consequence : Expr} {alternative : Option Expr}
    (hcondition : Recovered ctx r .operand condition) (hshaped : condition.Shaped .operand)
    (hconsequence : Recovered ctx r .body consequence) (hbody : consequence.Shaped .body)
    (halternative : ∀ e, alternative = some e →
      e.isConditional = true ∧ BranchRecovered ctx r e ∨
        e.isConditional = false ∧ Recovered ctx r .body e) :
    BranchRecovered ctx r (.conditional loc condition consequence alternative) := by
  intro _ depth fuel word hdepth hfuel
  simp only [Expr.nesting] at hdepth
  simp only [Rendering.render, List.length_cons, List.length_append] at hfuel
  obtain ⟨fuel, rfl⟩ := Nat.exists_eq_succ_of_ne_zero (by omega : fuel ≠ 0)
  refine recovers_conditional (hcondition.enclosed hshaped (by omega))
    (hconsequence depth (by omega)) ?_ fun e he => ?_
  · cases hbody with
    | block => exact ⟨_, rfl⟩
  · subst he
    rcases halternative e rfl with ⟨hform, hbranch⟩ | ⟨hform, hblock⟩
    · refine .inl ⟨hform, fun word => hbranch hform depth fuel word ?_ ?_⟩
      · rw [Expr.nestingElse, if_pos hform] at hdepth
        omega
      · rw [Rendering.renderElse, if_pos hform, List.length_append, List.length_cons,
          List.length_tail] at hfuel
        omega
    · refine .inr ⟨hform, hblock depth ?_⟩
      rw [Expr.nestingElse, if_neg (by simp [hform])] at hdepth
      omega

end Shaped

/-- Every expression of the grammar is read back, at the place where it stands. -/
theorem recovered_of_shaped {ctx : Context} {r : Rendering} {place : Expr.Place} {e : Expr}
    (h : e.Shaped place) : Recovered ctx r place e ∧ BranchRecovered ctx r e := by
  induction h with
  | ident => exact ⟨recovered_ident, .of_other rfl⟩
  | symbol => exact ⟨recovered_symbol, .of_other rfl⟩
  | literal hvalue =>
    refine ⟨recovered_of_form (by simp [Expr.nesting]) fun depth _ => ?_, .of_other rfl⟩
    exact (recovers_literal hvalue).imp (fun _ _ => trivial) fun _ => id
  | binary hleft hright ihLeft ihRight =>
    refine ⟨fun depth hdepth => ?_, .of_other rfl⟩
    simp only [Expr.nesting] at hdepth
    refine recovers_binary (ihLeft.1.enclosed hleft (by omega))
      (ihRight.1.enclosed hright (by omega)) fun left right hl hr => ?_
    have halike : left.bare = _ ∧ right.bare = _ := ⟨hl, hr⟩
    simp [Expr.Alike, Expr.bare, halike]
  | async hinner ih =>
    refine ⟨recovered_of_form (by simp only [Expr.nesting]; omega) fun depth hdepth => ?_,
      .of_other rfl⟩
    simp only [Expr.nesting] at hdepth
    refine recovers_prefixed (fun t => .async (ctx.loc t))
      (ih.1.enclosed hinner (by omega)) (fun t ht tokens => ?_) fun t e' he' => ?_
    · have hkind : t.kind = .kwAsync := congrArg Prod.fst ht
      simp only [form, hkind]
    · have halike : e'.bare = _ := he'
      simp [Expr.Alike, Expr.bare, halike]
  | await hinner ih =>
    refine ⟨recovered_of_form (by simp only [Expr.nesting]; omega) fun depth hdepth => ?_,
      .of_other rfl⟩
    simp only [Expr.nesting] at hdepth
    refine recovers_prefixed (fun t => .await (ctx.loc t))
      (ih.1.enclosed hinner (by omega)) (fun t ht tokens => ?_) fun t e' he' => ?_
    · have hkind : t.kind = .kwAwait := congrArg Prod.fst ht
      simp only [form, hkind]
    · have halike : e'.bare = _ := he'
      simp [Expr.Alike, Expr.bare, halike]
  | call hargs ih =>
    refine ⟨recovered_of_form (by simp only [Expr.nesting]; omega) fun depth hdepth => ?_,
      .of_other rfl⟩
    simp only [Expr.nesting] at hdepth
    refine (recovers_call (fun a ha => (ih a ha).1 depth ?_)
      fun a ha => opens_render_argument (hargs a ha)).imp (fun _ _ => trivial) fun _ => id
    have := Expr.nesting_le_nestingAll ha
    omega
  | positional hvalue ih =>
    refine ⟨fun depth hdepth => ?_, .of_other rfl⟩
    dsimp only
    rw [Rendering.render, Rendering.renderKeyword, List.nil_append]
    exact recovers_positional (ih.1 depth hdepth) fun _ _ => startsKeyword_render hvalue
  | keyword hvalue ih =>
    exact ⟨fun depth hdepth => recovers_keyword (ih.1 depth hdepth) (opens_render hvalue),
      .of_other rfl⟩
  | block hne hitems ih =>
    refine ⟨fun depth hdepth => ?_, .of_other rfl⟩
    simp only [Expr.nesting] at hdepth
    refine recovers_block hne (fun e he => (ih e he).1 depth ?_)
      fun e he => opens_render (hitems e he)
    exact Nat.le_trans (Expr.nesting_le_nestingAll he) hdepth
  | lambda hparams hbody ih => exact ⟨recovered_lambda hparams ih.1, .of_other rfl⟩
  | definition hparams hbody ih => exact ⟨recovered_definition hparams ih.1, .of_other rfl⟩
  | conditional hcondition hconsequence ihCondition ihConsequence =>
    exact recovered_of_branch rfl
      (branchRecovered ihCondition.1 hcondition ihConsequence.1 hconsequence (by simp))
  | otherwise hcondition hconsequence halternative ihCondition ihConsequence ihAlternative =>
    refine recovered_of_branch rfl
      (branchRecovered ihCondition.1 hcondition ihConsequence.1 hconsequence fun e he => ?_)
    cases he
    cases halternative with
    | block => exact .inr ⟨rfl, ihAlternative.1⟩
  | elif hcondition hconsequence _ ihCondition ihConsequence ihAlternative =>
    refine recovered_of_branch rfl
      (branchRecovered ihCondition.1 hcondition ihConsequence.1 hconsequence fun e he => ?_)
    cases he
    exact .inl ⟨rfl, ihAlternative.2⟩

/-- The expressions of the outermost level. -/
theorem programFrom_render {ctx : Context} (hctx : ctx.failure = none) {r : Rendering}
    {program : List Expr} (hshaped : ∀ e ∈ program, e.Shaped .operand)
    (hnesting : ∀ e ∈ program, e.nesting ≤ maxDepth) {tokens : List Token}
    (htokens : tokens.map Token.face = r.itemized (program.map r.render)) {fuel : Nat}
    (hfuel : program.length < fuel) :
    ∃ parsed, programFrom ctx fuel tokens = .ok parsed ∧
      parsed.map Expr.bare = program.map Expr.bare := by
  induction program generalizing tokens fuel with
  | nil =>
    obtain ⟨fuel, rfl⟩ := Nat.exists_eq_succ_of_ne_zero (Nat.ne_of_gt hfuel)
    cases List.map_eq_nil_iff.mp htokens
    exact ⟨[], by simp [programFrom, programRound, skipTerminators, hctx], rfl⟩
  | cons e program ih =>
    obtain ⟨fuel, rfl⟩ := Nat.exists_eq_succ_of_ne_zero (Nat.ne_of_gt (Nat.zero_lt_of_lt hfuel))
    rw [List.forall_mem_cons] at hshaped hnesting
    rw [Rendering.itemized, List.map_cons, Rendering.joined] at htokens
    obtain ⟨first, second, rfl, hfirst, hsecond⟩ := List.map_eq_append_iff.mp htokens
    have hopens : ∀ g ∈ program.map r.render, Opens g :=
      List.forall_mem_map.mpr fun e' he' => opens_render (hshaped.2 e' he')
    have hfollows : Follows (second ++ []) := follows_joined (.inr rfl) hopens trivial hsecond
    have hread : Recovered ctx r .operand e := (recovered_of_shaped hshaped.1).1
    obtain ⟨x, hx, halike⟩ :=
      hread maxDepth hnesting.1 first second hfirst (by simpa using hfollows)
    obtain ⟨left, hend, hleft⟩ : ∃ left, endExpression ctx second = .ok left ∧
        left.map Token.face = r.itemized (program.map r.render) := by
      unfold Rendering.separator at hsecond
      split at hsecond
      · next hempty =>
        obtain ⟨hprogram, -⟩ : program = [] ∧ r.closed = false := by simpa using hempty
        subst hprogram
        cases List.map_eq_nil_iff.mp hsecond
        exact ⟨[], rfl, rfl⟩
      · obtain ⟨t, left, rfl, ht, hleft⟩ := List.map_eq_cons_iff.mp hsecond
        have hkind : t.kind = .terminator := congrArg Prod.fst ht
        exact ⟨left, by simp [endExpression, hkind], hleft⟩
    obtain ⟨es, hes, halikes⟩ := ih hshaped.2 hnesting.2 hleft (by simpa using hfuel)
    obtain ⟨t, others, rfl, hstarts⟩ := (opens_render (r := r) hshaped.1).of_map hfirst
    have hne : t.kind ≠ .terminator := by
      intro h
      rw [h] at hstarts
      cases hstarts
    refine ⟨x :: es, ?_, congrArg₂ List.cons halike halikes⟩
    simp only [List.cons_append] at hx ⊢
    simp only [programFrom, programRound, skipTerminators_cons hne, hx, hend, hes, bind,
      Except.bind]

end Parser

/-- A program of the grammar is read back from the tokens it is rendered as, but for locations: for
every way to spell its literals and to place the terminators that carry no meaning, and wherever
the tokens are from, if its operands do not nest too deep. -/
theorem parseStream_render (source : Source) (r : Rendering) {program : List Expr}
    (hshaped : ∀ e ∈ program, e.Shaped .operand)
    (hnesting : ∀ e ∈ program, e.nesting ≤ Parser.maxDepth) {tokens : List Token}
    (htokens : tokens.map Token.face = r.itemized (program.map r.render)) :
    ∃ parsed, source.parseStream { tokens, failure := none } = .ok parsed ∧
      parsed.map Expr.bare = program.map Expr.bare := by
  refine Parser.programFrom_render rfl hshaped hnesting htokens ?_
  have hgroups : ∀ g ∈ program.map r.render, Parser.Opens g :=
    List.forall_mem_map.mpr fun e he => Parser.opens_render (hshaped e he)
  have := Parser.length_le_joined (.terminator, ";") r.closed hgroups
  have := congrArg List.length htokens
  simp only [List.length_map, Rendering.itemized] at *
  omega

/-- Any texts that are read as the literals. -/
noncomputable def Rendering.chosen (closed parted : Bool) : Rendering where
  text value := open Classical in if h : value.Spelled then h.choose else ""
  readFrom h := by simpa [h] using h.choose_spec
  closed
  parted

def branching (loc : Location) : Expr :=
  .definition loc "main" ["x", "y"] (.block loc
    [.binary loc .assign (.ident loc "t") (.async loc (.call loc (.ident loc "f")
        [.argument loc (some (.symbol loc "k")) (.literal loc (.integer 1)),
          .argument loc none (.symbol loc "s")])),
      .conditional loc (.ident loc "x") (.block loc [.await loc (.ident loc "t")])
        (some (.conditional loc (.ident loc "y") (.block loc [.literal loc .null])
          (some (.block loc [.lambda loc [] (.block loc [.ident loc "x"])]))))]) (some "task")

/-- The function is read back from the tokens it is rendered as. -/
theorem parseStream_render_branching :
    ∃ tokens parsed, tokens.map Token.face = (Rendering.chosen true true).itemized
        ([branching Expr.nowhere].map (Rendering.chosen true true).render) ∧
      ({ filename := "", text := "" } : Source).parseStream { tokens, failure := none } = .ok parsed ∧
      parsed.map Expr.bare = [branching Expr.nowhere].map Expr.bare := by
  have one : (Literal.integer 1).Spelled := ⟨"1", rfl⟩
  have null : Literal.null.Spelled := ⟨"", trivial⟩
  have shaped : ∀ e ∈ [branching Expr.nowhere], e.Shaped .operand := by
    simp only [List.mem_singleton, forall_eq]
    have call : (Expr.call Expr.nowhere (.ident Expr.nowhere "f")
        [.argument Expr.nowhere (some (.symbol Expr.nowhere "k")) (.literal Expr.nowhere (.integer 1)),
          .argument Expr.nowhere none (.symbol Expr.nowhere "s")]).Shaped .operand := by
      refine .call ?_
      simp only [List.forall_mem_cons, List.not_mem_nil, false_implies, implies_true, and_true]
      exact ⟨.keyword (.literal one), .positional .symbol⟩
    have single {e : Expr} (h : e.Shaped .operand) : (Expr.block Expr.nowhere [e]).Shaped .body :=
      .block (by simp) (by simpa using h)
    refine .definition (by decide) (.block (by simp) ?_)
    simp only [List.forall_mem_cons, List.not_mem_nil, false_implies, implies_true, and_true]
    refine ⟨.binary .ident (.async call), .elif .ident (single (.await .ident)) ?_⟩
    exact .otherwise .ident (single (.literal null)) (single (.lambda .nil (single .ident)))
  have nesting : ∀ e ∈ [branching Expr.nowhere], e.nesting ≤ Parser.maxDepth := by
    decide
  let token (f : Token.Face) : Token := { kind := f.1, value := f.2, line := 1, index := 0 }
  let faces := (Rendering.chosen true true).itemized
    ([branching Expr.nowhere].map (Rendering.chosen true true).render)
  have htokens : (faces.map token).map Token.face = faces := by
    rw [List.map_map]
    exact List.map_id faces
  obtain ⟨parsed, hparsed, halike⟩ := parseStream_render { filename := "", text := "" }
    (Rendering.chosen true true) shaped nesting htokens
  exact ⟨faces.map token, parsed, htokens, hparsed, halike⟩

end Teal
