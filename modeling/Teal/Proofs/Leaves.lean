import Mathlib.Data.List.Forall2
import Teal.Proofs.Grammar

/-!
# What is read of tokens

The tokens that carry what a program says are its leaves: tags, names, symbols, literals and
operators, and the brackets that tell a literal from a call. A reader takes the tokens it reads off
the start of a list, and it puts every leaf among them into the expression that it returns, in the
order of the text: reading the expression from left to right gives them back. So does each form of
an expression, whatever the reader of its operands is, if that reader does.

## Main definitions

* `Leaf`, `Token.leaf?`: what a token says.
* `Expr.Reading`: what is read of an expression from left to right.
* `Parser.Spends`: the leaves of the tokens before a rest.
* `Parser.Gives`, `Parser.Took`, `Parser.Takes`: a reader reads from the leaves of what it takes.

## Main statements

* `Leaf.Spelled.words`: the leaves other than brackets are the words of the tokens.
* `Parser.took_bind`: one reader after another reads from the leaves of both.
* `Parser.takes_operand`: readers of operands, to any depth.
* `Parser.gives_programFrom`: a program is read from the leaves of all tokens.
-/

namespace Teal

/-! ## Leaves -/

/-- What a token says besides how the text is laid out. -/
inductive Leaf
  | tag (text : String)
  | name (text : String)
  | symbol (text : String)
  | literal (value : Literal)
  | operator (op : BinaryOp)
  /-- The bracket that begins a list literal. -/
  | bracket
  /-- The brace that begins a hash literal or a block. -/
  | brace

/-- Leaves other than the brackets that literals and blocks begin with. -/
def Leaf.isWord : Leaf → Bool
  | .bracket | .brace => false
  | _ => true

namespace Token

def Kind.isWord : Kind → Bool
  | .tag | .name | .symbol | .number | .string | .kwTrue | .kwFalse | .kwNull
  | .plus | .minus | .star | .slash | .and | .or | .equal | .assign | .greater | .less => true
  | _ => false

def Kind.isLeaf (kind : Kind) : Bool :=
  kind.isWord || kind = .leftBracket || kind = .leftBrace

/-- The leaf of a token: a symbol has a colon before its name, a number has to be represented, and
of a string the escapes are resolved. -/
def leaf? (t : Token) : Option Leaf :=
  match t.kind with
  | .tag => some (.tag t.value)
  | .name => some (.name t.value)
  | .symbol =>
    match t.value.toList with
    | ':' :: name => some (.symbol (String.ofList name))
    | _ => none
  | .number => (Literal.ofNumber? t.value).map .literal
  | .string => some (.literal (.string (Text.unquote t.value)))
  | .kwTrue => some (.literal (.boolean true))
  | .kwFalse => some (.literal (.boolean false))
  | .kwNull => some (.literal .null)
  | .leftBracket => some .bracket
  | .leftBrace => some .brace
  | kind => (BinaryOp.ofKind? kind).map .operator

def Colonned (t : Token) : Prop :=
  t.kind = .symbol → t.value.toList.head? = some ':'

end Token

def Leaf.Spelled (tokens : List Token) (leaves : List Leaf) : Prop :=
  (tokens.filter fun t => t.kind.isLeaf).map Token.leaf? = leaves.map some

namespace Expr

/-- What is read of an expression from left to right. A call of `list` or `hash` is read as such a
call or as a literal, whose callee was not written. -/
inductive Reading : Expr → List Leaf → Prop
  | ident {loc name} : Reading (.ident loc name) [.name name]
  | symbol {loc name} : Reading (.symbol loc name) [.symbol name]
  | literal {loc value} : Reading (.literal loc value) [.literal value]
  | binary {loc op left right ls rs} : Reading left ls → Reading right rs →
    Reading (.binary loc op left right) (ls ++ .operator op :: rs)
  | async {loc inner ls} : Reading inner ls → Reading (.async loc inner) ls
  | await {loc inner ls} : Reading inner ls → Reading (.await loc inner) ls
  | positional {loc value ls} : Reading value ls → Reading (.argument loc none value) ls
  | keyword {loc keyword value ks ls} : Reading keyword ks → Reading value ls →
    Reading (.argument loc (some keyword) value) (ks ++ ls)
  | call {loc callee args cs parts} : Reading callee cs → List.Forall₂ Reading args parts →
    Reading (.call loc callee args) (cs ++ parts.flatten)
  | listLiteral {loc args parts} : List.Forall₂ Reading args parts →
    Reading (.callNamed loc "list" args) (.bracket :: parts.flatten)
  | hashLiteral {loc args parts} : List.Forall₂ Reading args parts →
    Reading (.callNamed loc "hash" args) (.brace :: parts.flatten)
  | block {loc items parts} : List.Forall₂ Reading items parts →
    Reading (.block loc items) (.brace :: parts.flatten)
  | conditional {loc condition consequence cs ls} : Reading condition cs →
    Reading consequence ls → Reading (.conditional loc condition consequence none) (cs ++ ls)
  | otherwise {loc condition consequence alternative cs ls rs} : Reading condition cs →
    Reading consequence ls → Reading alternative rs →
    Reading (.conditional loc condition consequence (some alternative)) (cs ++ (ls ++ rs))
  | lambda {loc params body ls} : Reading body ls →
    Reading (.lambda loc params body) (params.map .name ++ ls)
  | definition {loc name params body tag ls} : Reading body ls →
    Reading (.definition loc name params body tag)
      (tag.toList.map .tag ++ .name name :: (params.map .name ++ ls))

end Expr

namespace Leaf

variable {tokens : List Token} {leaves : List Leaf}

theorem Spelled.append {tokens' : List Token} {leaves' : List Leaf} (h : Spelled tokens leaves)
    (h' : Spelled tokens' leaves') : Spelled (tokens ++ tokens') (leaves ++ leaves') := by
  rw [Spelled, List.filter_append, List.map_append, h, h', List.map_append]

theorem spelled_layout {t : Token} (h : t.kind.isLeaf = false) : Spelled [t] [] := by
  simp [Spelled, h]

theorem spelled_leaf {t : Token} {leaf : Leaf} (hkind : t.kind.isLeaf = true)
    (h : t.leaf? = some leaf) : Spelled [t] [leaf] := by
  simp [Spelled, hkind, h]

theorem isWord_of_leaf? {t : Token} {leaf : Leaf} (h : t.leaf? = some leaf) :
    leaf.isWord = t.kind.isWord := by
  unfold Token.leaf? at h
  split at h
  case h_3 hkind =>
    split at h <;> cases h
    rw [hkind]
    rfl
  case h_4 hkind =>
    obtain ⟨value, -, rfl⟩ := Option.map_eq_some_iff.mp h
    rw [hkind]
    rfl
  case h_11 =>
    obtain ⟨op, hop, rfl⟩ := Option.map_eq_some_iff.mp h
    unfold BinaryOp.ofKind? at hop
    split at hop <;> simp_all [isWord, Token.Kind.isWord]
  all_goals
    cases h
    simp_all [isWord, Token.Kind.isWord]

/-- Of the leaves that are words nothing is added and nothing left out. -/
theorem Spelled.words (h : Spelled tokens leaves) :
    (tokens.filter fun t => t.kind.isWord).map Token.leaf? = (leaves.filter isWord).map some := by
  induction tokens generalizing leaves with
  | nil =>
    cases leaves with
    | nil => rfl
    | cons => cases h
  | cons t tokens ih =>
    by_cases hleaf : t.kind.isLeaf
    · cases leaves with
      | nil => simp [Spelled, hleaf] at h
      | cons leaf leaves =>
        have hsplit : t.leaf? = some leaf ∧ Spelled tokens leaves := by
          simpa [Spelled, hleaf] using h
        obtain ⟨ht, hrest⟩ := hsplit
        have hword := isWord_of_leaf? ht
        by_cases hkind : t.kind.isWord
        · simp [hkind, hword, ht, ih hrest]
        · simp [hkind, hword, ih hrest]
    · have hrest : Spelled tokens leaves := by simpa [Spelled, hleaf] using h
      have hkind : t.kind.isWord = false := by grind [Token.Kind.isLeaf]
      simp [hkind, ih hrest]

end Leaf

/-! ## What readers read -/

namespace Parser

/-- The tokens before the rest have these leaves. -/
def Spends (tokens rest : List Token) (leaves : List Leaf) : Prop :=
  ∃ taken, tokens = taken ++ rest ∧ ((∀ t ∈ taken, t.Colonned) → Leaf.Spelled taken leaves)

def Gives (P : α → List Leaf → Prop) (tokens : List Token) (p : Parsed α) : Prop :=
  ∃ leaves, P p.1 leaves ∧ Spends tokens p.2 leaves

def Took (P : α → List Leaf → Prop) (tokens : List Token) (p : Parsed α) : Prop :=
  Gives P tokens p ∧ p.2.length < tokens.length

/-- What a reader reads, it reads from the leaves of the tokens that it takes. -/
def Takes (P : α → List Leaf → Prop) (r : Reader α) : Prop :=
  ∀ tokens, Yields (Took P tokens) (r tokens)

def Each (P : α → List Leaf → Prop) (items : List α) (leaves : List Leaf) : Prop :=
  ∃ parts, List.Forall₂ P items parts ∧ leaves = parts.flatten

section Spends

variable {tokens rest last : List Token} {leaves leaves' : List Leaf} {t : Token}

theorem spends_refl (tokens : List Token) : Spends tokens tokens [] :=
  ⟨[], rfl, fun _ => rfl⟩

theorem Spends.trans (h : Spends tokens rest leaves) (h' : Spends rest last leaves') :
    Spends tokens last (leaves ++ leaves') := by
  obtain ⟨taken, rfl, hspelled⟩ := h
  obtain ⟨taken', rfl, hspelled'⟩ := h'
  refine ⟨taken ++ taken', by rw [List.append_assoc], fun hcolon => ?_⟩
  rw [List.forall_mem_append] at hcolon
  exact (hspelled hcolon.1).append (hspelled' hcolon.2)

theorem Spends.length_le (h : Spends tokens rest leaves) : rest.length ≤ tokens.length := by
  obtain ⟨taken, rfl, -⟩ := h
  simp

theorem spends_layout (h : t.kind.isLeaf = false) : Spends (t :: rest) rest [] :=
  ⟨[t], rfl, fun _ => Leaf.spelled_layout h⟩

theorem spends_leaf {leaf : Leaf} (hkind : t.kind.isLeaf = true)
    (h : t.Colonned → t.leaf? = some leaf) : Spends (t :: rest) rest [leaf] :=
  ⟨[t], rfl, fun hcolon => Leaf.spelled_leaf hkind (h (hcolon t List.mem_cons_self))⟩

theorem spends_skip (tokens : List Token) : Spends tokens (skipTerminators tokens) [] := by
  induction tokens with
  | nil => exact spends_refl []
  | cons t rest ih =>
    by_cases hkind : t.kind = .terminator
    · have hskip : skipTerminators (t :: rest) = skipTerminators rest := by
        simp [skipTerminators, hkind]
      rw [hskip]
      exact (spends_layout (by rw [hkind]; rfl)).trans ih
    · have hskip : skipTerminators (t :: rest) = t :: rest := by
        simp [skipTerminators, hkind]
      rw [hskip]
      exact spends_refl _

theorem eq_cons_of_eat {kind : Token.Kind} (h : eat? kind tokens = some rest) :
    ∃ t, tokens = t :: rest ∧ t.kind = kind := by
  cases tokens with
  | nil => cases h
  | cons t tokens =>
    simp only [eat?] at h
    split at h
    · next hkind =>
      cases h
      exact ⟨t, rfl, hkind⟩
    · cases h

theorem spends_join (tokens : List Token) : Spends tokens (joinBranches tokens) [] := by
  fun_cases joinBranches tokens with
  | case1 first second rest h =>
    have hkind : first.kind = .terminator := by grind
    exact spends_layout (by rw [hkind]; rfl)
  | case2 | case3 => exact spends_refl _

end Spends

section Gives

variable {tokens rest : List Token} {leaves : List Leaf} {P : α → List Leaf → Prop}
  {Q : β → List Leaf → Prop} {x : Except ParseError (Parsed α)}
  {f : Parsed α → Except ParseError (Parsed β)}

theorem gives_ok {a : α} (h : P a []) : Yields (Gives P tokens) (.ok (a, tokens)) :=
  ⟨[], h, spends_refl tokens⟩

theorem gives_bind (hx : Yields (Gives P tokens) x) (hf : ∀ a rest ls, P a ls →
    Yields (Gives (fun b ls' => Q b (ls ++ ls')) rest) (f (a, rest))) :
    Yields (Gives Q tokens) (x >>= f) := by
  refine hx.bind fun ⟨a, rest⟩ ⟨ls, ha, hspends⟩ => ?_
  refine (hf a rest ls ha).mono fun ⟨b, last⟩ ⟨ls', hb, hspends'⟩ => ?_
  exact ⟨ls ++ ls', hb, hspends.trans hspends'⟩

theorem took_bind (hx : Yields (Took P tokens) x) (hf : ∀ a rest ls, P a ls →
    Yields (Gives (fun b ls' => Q b (ls ++ ls')) rest) (f (a, rest))) :
    Yields (Took Q tokens) (x >>= f) := by
  refine hx.bind fun ⟨a, rest⟩ ⟨⟨ls, ha, hspends⟩, hlt⟩ => ?_
  refine (hf a rest ls ha).mono fun ⟨b, last⟩ ⟨ls', hb, hspends'⟩ => ?_
  exact ⟨⟨ls ++ ls', hb, hspends.trans hspends'⟩, Nat.lt_of_le_of_lt hspends'.length_le hlt⟩

theorem gives_of_took (h : Yields (Took P tokens) x) : Yields (Gives P tokens) x :=
  h.mono fun _ hp => hp.1

/-- What a reader reads, and what is read after it. -/
theorem Takes.andThen {r : Reader α} (h : Takes P r) (hf : ∀ a rest ls, P a ls →
    Yields (Gives (fun b ls' => Q b (ls ++ ls')) rest) (f (a, rest))) :
    Yields (Gives Q tokens) (r tokens >>= f) :=
  gives_bind (gives_of_took (h tokens)) hf

/-- What is read after some tokens is read with them. -/
theorem Spends.gives (h : Spends tokens rest leaves)
    (hx : Yields (Gives (fun a ls => P a (leaves ++ ls)) rest) x) : Yields (Gives P tokens) x :=
  hx.mono fun _ ⟨ls, ha, hspends⟩ => ⟨leaves ++ ls, ha, h.trans hspends⟩

theorem Spends.took (h : Spends tokens rest leaves)
    (hx : Yields (Took (fun a ls => P a (leaves ++ ls)) rest) x) : Yields (Took P tokens) x :=
  hx.mono fun _ ⟨⟨ls, ha, hspends⟩, hlt⟩ =>
    ⟨⟨leaves ++ ls, ha, h.trans hspends⟩, Nat.lt_of_lt_of_le hlt h.length_le⟩

/-- What is read after a token takes this token. -/
theorem Spends.took_cons {t : Token} (h : Spends (t :: rest) rest leaves)
    (hx : Yields (Gives (fun a ls => P a (leaves ++ ls)) rest) x) :
    Yields (Took P (t :: rest)) x :=
  hx.mono fun _ ⟨ls, ha, hspends⟩ =>
    ⟨⟨leaves ++ ls, ha, h.trans hspends⟩, Nat.lt_succ_of_le hspends.length_le⟩

theorem gives_mono {P' : α → List Leaf → Prop} (h : Yields (Gives P tokens) x)
    (hp : ∀ a ls, P a ls → P' a ls) : Yields (Gives P' tokens) x :=
  h.mono fun _ ⟨ls, ha, hspends⟩ => ⟨ls, hp _ _ ha, hspends⟩

end Gives

section Each

variable {P : α → List Leaf → Prop} {items : List α} {a : α} {leaves ls : List Leaf}

theorem each_nil : Each P [] [] :=
  ⟨[], .nil, rfl⟩

theorem Each.cons (ha : P a ls) (h : Each P items leaves) : Each P (a :: items) (ls ++ leaves) := by
  obtain ⟨parts, hparts, rfl⟩ := h
  exact ⟨ls :: parts, .cons ha hparts, rfl⟩

theorem Each.snoc (h : Each P items leaves) (ha : P a ls) :
    Each P (items ++ [a]) (leaves ++ ls) := by
  obtain ⟨parts, hparts, rfl⟩ := h
  exact ⟨parts ++ [ls], List.rel_append hparts (.cons ha .nil), by simp⟩

theorem Each.eq_map {f : α → Leaf} (h : Each (fun a ls => ls = [f a]) items leaves) :
    leaves = items.map f := by
  obtain ⟨parts, hparts, rfl⟩ := h
  induction hparts with
  | nil => rfl
  | cons ha _ ih => rw [List.flatten_cons, ha, ih, List.map_cons, List.singleton_append]

theorem Each.map {Q : β → List Leaf → Prop} {f : α → β} (h : Each P items leaves)
    (hf : ∀ a ls, P a ls → Q (f a) ls) : Each Q (items.map f) leaves := by
  obtain ⟨parts, hparts, rfl⟩ := h
  exact ⟨parts, List.forall₂_map_left_iff.mpr (hparts.imp hf), rfl⟩

theorem Each.flatMap {Q : β → List Leaf → Prop} {f : α → List β} (h : Each P items leaves)
    (hf : ∀ a ls, P a ls → Each Q (f a) ls) : Each Q (items.flatMap f) leaves := by
  obtain ⟨parts, hparts, rfl⟩ := h
  induction hparts with
  | nil => exact each_nil
  | @cons a ls items parts ha _ ih =>
    obtain ⟨firsts, hfirsts, rfl⟩ := hf a ls ha
    obtain ⟨others, hothers, hparts⟩ := ih
    refine ⟨firsts ++ others, List.rel_append hfirsts hothers, ?_⟩
    rw [List.flatten_cons, hparts, List.flatten_append]

end Each

section Readers

variable {ctx : Context} {operand : Reader Expr}

theorem takes_expect {kind : Token.Kind} {expected : String} {f : Token → List Leaf}
    (h : ∀ t rest, t.kind = kind → Spends (t :: rest) rest (f t)) :
    Takes (fun t ls => ls = f t) (expect ctx kind expected) := by
  intro tokens
  cases tokens with
  | nil => trivial
  | cons t rest =>
    simp only [expect]
    split
    · next hkind => exact (h t rest hkind).took_cons (gives_ok (by simp))
    · trivial

/-- A token that is no leaf is taken and not read. -/
theorem takes_layout {kind : Token.Kind} {expected : String} (h : kind.isLeaf = false) :
    Takes (fun _ ls => ls = []) (expect ctx kind expected) :=
  takes_expect fun _ _ hkind => spends_layout (by rw [hkind, h])

theorem takes_name {expected : String} :
    Takes (fun t ls => ls = [.name t.value]) (expect ctx .name expected) :=
  takes_expect fun t _ hkind =>
    spends_leaf (by rw [hkind]; rfl) fun _ => by simp [Token.leaf?, hkind]

theorem takes_brace {expected : String} :
    Takes (fun _ ls => ls = [.brace]) (expect ctx .leftBrace expected) :=
  takes_expect fun t _ hkind =>
    spends_leaf (by rw [hkind]; rfl) fun _ => by simp [Token.leaf?, hkind]

theorem spends_symbol {t : Token} (ht : t.kind = .symbol) (rest : List Token) :
    Spends (t :: rest) rest [.symbol (symbolName t)] := by
  refine spends_leaf (by rw [ht]; rfl) fun hcolon => ?_
  obtain ⟨name, hname⟩ := List.head?_eq_some_iff.mp (hcolon ht)
  simp [Token.leaf?, ht, symbolName, hname]

/-! ### Chains -/

/-- What is read of operators that wait, the last one on top. -/
inductive Stacked : List Waiting → List Leaf → Prop
  | nil : Stacked [] []
  | cons {w waiting before ls} : Stacked waiting before → w.left.Reading ls →
    Stacked (w :: waiting) (before ++ (ls ++ [.operator w.op]))

theorem Stacked.closeAll {waiting : List Waiting} {before ls : List Leaf} {e : Expr}
    (h : Stacked waiting before) (he : e.Reading ls) :
    (Waiting.closeAll waiting e).Reading (before ++ ls) := by
  induction h generalizing e ls with
  | nil => exact he
  | @cons w waiting before ws _ hw ih =>
    have hclosed : (w.close e).Reading (ws ++ .operator w.op :: ls) := .binary hw he
    simpa [Waiting.closeAll] using ih hclosed

theorem Stacked.push {op : BinaryOp} {waiting waiting' : List Waiting} {before ls : List Leaf}
    {e : Expr} (hpush : Waiting.push op waiting e = some waiting') (h : Stacked waiting before)
    (he : e.Reading ls) : Stacked waiting' (before ++ (ls ++ [.operator op])) := by
  fun_induction Waiting.push op waiting e generalizing before ls with
  | case1 => cases hpush; exact .cons h he
  | case2 w waiting e _ ih | case4 w waiting e _ _ _ ih =>
    cases h with
    | @cons _ _ before ws h hw =>
      have hclosed : (w.close e).Reading (ws ++ .operator w.op :: ls) := .binary hw he
      simpa using ih hpush h hclosed
  | case3 | case5 => cases hpush; exact .cons h he
  | case6 => cases hpush

theorem spends_operator {t : Token} {op : BinaryOp} (h : BinaryOp.ofKind? t.kind = some op)
    (rest : List Token) : Spends (t :: rest) rest [.operator op] := by
  obtain ⟨kind, value, line, index⟩ := t
  refine spends_leaf ?_ fun _ => ?_
  · cases kind <;> first | rfl | cases h
  · cases kind <;> first | exact congrArg (Option.map Leaf.operator) h | cases h

theorem gives_chain (hop : Takes Expr.Reading operand) (fuel : Nat) {waiting : List Waiting}
    {left : Expr} {before ls : List Leaf} (hwaiting : Stacked waiting before)
    (hleft : left.Reading ls) (tokens : List Token) :
    Yields (Gives (fun e leaves => e.Reading (before ++ (ls ++ leaves))) tokens)
      (chain ctx operand fuel waiting left tokens) := by
  have hclosed := hwaiting.closeAll hleft
  induction fuel generalizing waiting left before ls tokens with
  | zero => exact gives_ok (by simpa using hclosed)
  | succ fuel ih =>
    cases tokens with
    | nil => exact gives_ok (by simpa using hclosed)
    | cons t rest =>
      simp only [chain, chainRound]
      split
      · exact gives_ok (by simpa using hclosed)
      · next op hop' =>
        split
        · trivial
        · next waiting' hpush =>
          refine (spends_operator hop' rest).gives ?_
          refine hop.andThen fun right last rs hright => ?_
          have hstacked := Stacked.push hpush hwaiting hleft
          have hrest := ih hstacked hright last (hstacked.closeAll hright)
          exact gives_mono hrest fun e leaves he => by simpa using he

theorem takes_expression (hop : Takes Expr.Reading operand) :
    Takes Expr.Reading (expression ctx operand) :=
  fun tokens => took_bind (hop tokens) fun _ rest _ hleft => gives_chain hop _ .nil hleft rest

/-! ### Lists of items -/

theorem took_separated {close : Token.Kind} (hclose : close.isLeaf = false) {expected : String}
    {item : List α → Reader α} {P : α → List Leaf → Prop} (hitem : ∀ items, Takes P (item items))
    (fuel : Nat) {items : List α} {before : List Leaf} (h : Each P items before)
    (tokens : List Token) :
    Yields (Took (fun items leaves => Each P items (before ++ leaves)) tokens)
      (separated ctx close expected item fuel items tokens) := by
  induction fuel generalizing items before tokens with
  | zero => trivial
  | succ fuel ih =>
    simp only [separated, separatedRound]
    refine (spends_skip tokens).took ?_
    generalize skipTerminators tokens = tokens
    split
    · next rest heat =>
      obtain ⟨t, rfl, rfl⟩ := eq_cons_of_eat heat
      exact (spends_layout hclose).took_cons (gives_ok (by simpa using h))
    · refine took_bind (hitem items tokens) fun a rest ls ha => (spends_skip rest).gives ?_
      have hitems := h.snoc ha
      dsimp only
      generalize skipTerminators rest = rest
      split
      · next rest heat =>
        obtain ⟨t, rfl, hkind⟩ := eq_cons_of_eat heat
        have hcomma : Spends (t :: rest) rest [] := spends_layout (by rw [hkind]; rfl)
        have hrest := gives_of_took (ih hitems rest)
        exact hcomma.gives (gives_mono hrest fun _ _ hall => by simpa using hall)
      · refine (takes_layout hclose).andThen ?_
        rintro _ rest _ rfl
        exact gives_ok (by simpa using hitems)

theorem takes_delimited {close : Token.Kind} (hclose : close.isLeaf = false) {expected : String}
    {item : List α → Reader α} {P : α → List Leaf → Prop} (hitem : ∀ items, Takes P (item items)) :
    Takes (Each P) (delimited ctx close expected item) :=
  fun tokens => took_separated hclose hitem _ each_nil tokens

theorem takes_parameter (seen : List String) :
    Takes (fun name ls => ls = [.name name]) (parameter ctx seen) := by
  intro tokens
  refine took_bind (takes_name tokens) ?_
  rintro t rest _ rfl
  dsimp only
  split
  · trivial
  · exact gives_ok rfl

theorem takes_parameters :
    Takes (fun params ls => ls = params.map .name) (parameters ctx) := by
  intro tokens
  refine took_bind (takes_layout rfl tokens) ?_
  rintro _ rest _ rfl
  refine gives_mono (gives_of_took (takes_delimited rfl takes_parameter rest)) fun params ls h => ?_
  rw [h.eq_map, List.nil_append]

theorem takes_argument (hop : Takes Expr.Reading operand) :
    Takes Expr.Reading (argument ctx operand) := by
  intro tokens
  have hexpression : Takes Expr.Reading (expression ctx operand) := takes_expression hop
  have hpositional (tokens : List Token) : Yields (Took Expr.Reading tokens)
      (expression ctx operand tokens >>= fun p => .ok (p.1.positional, p.2)) :=
    took_bind (hexpression tokens) fun _ _ _ hvalue => gives_ok (by simpa using .positional hvalue)
  cases tokens with
  | nil => exact hpositional []
  | cons t rest =>
    simp only [argument]
    split
    · next hkeyword =>
      have hkind : t.kind = .symbol := by
        cases rest with
        | nil => cases hkeyword
        | cons => simp_all [startsKeyword]
      refine (spends_symbol hkind rest).took_cons ?_
      refine hexpression.andThen fun value last ls hvalue => gives_ok ?_
      simpa using .keyword .symbol hvalue
    · exact hpositional _

theorem takes_pair (hop : Takes Expr.Reading operand) :
    Takes (fun p ls => ∃ ks vs, p.1.Reading ks ∧ p.2.Reading vs ∧ ls = ks ++ vs)
      (pair ctx operand) := by
  intro tokens
  have hexpression : Takes Expr.Reading (expression ctx operand) := takes_expression hop
  refine took_bind (hexpression tokens) fun key rest ks hkey => ?_
  refine (spends_skip rest).gives ((takes_layout rfl).andThen ?_)
  rintro _ rest _ rfl
  refine (spends_skip rest).gives ?_
  refine hexpression.andThen fun value last vs hvalue => ?_
  exact gives_ok ⟨ks, vs, hkey, hvalue, by simp⟩

theorem gives_endItem (tokens : List Token) :
    Yields (fun rest => Spends tokens rest []) (endItem ctx tokens) := by
  unfold endItem
  split
  · exact spends_refl tokens
  · refine .map ((takes_layout rfl tokens).mono ?_)
    rintro ⟨_, rest⟩ ⟨⟨_, rfl, hspends⟩, -⟩
    exact hspends

theorem takes_blockItems (hop : Takes Expr.Reading operand) (fuel : Nat) :
    Takes (Each Expr.Reading) (blockItems ctx operand fuel) := by
  induction fuel with
  | zero => exact fun _ => trivial
  | succ fuel ih =>
    intro tokens
    simp only [blockItems, blockRound]
    refine (spends_skip tokens).took ?_
    generalize skipTerminators tokens = tokens
    split
    · trivial
    · next t rest =>
      split
      · next hkind => exact (spends_layout (by rw [hkind]; rfl)).took_cons (gives_ok each_nil)
      · refine took_bind (takes_expression hop _) fun item rest ls hitem => ?_
        refine (gives_endItem rest).bind fun last hend => hend.gives ?_
        refine ih.andThen fun items last leaves hitems => ?_
        exact gives_ok (by simpa using hitems.cons hitem)

theorem takes_block (hop : Takes Expr.Reading operand) :
    Takes Expr.Reading (block ctx operand) := by
  intro tokens
  refine took_bind (takes_brace tokens) ?_
  rintro brace rest _ rfl
  refine (takes_blockItems hop _).andThen fun items last ls hitems => ?_
  dsimp only
  split
  · trivial
  · obtain ⟨parts, hparts, rfl⟩ := hitems
    exact gives_ok (by simpa using .block hparts)

/-! ### Operands -/

theorem took_conditional (hop : Takes Expr.Reading operand) (fuel : Nat) {word : Token}
    (hword : word.kind.isLeaf = false) (tokens : List Token) :
    Yields (Took Expr.Reading (word :: tokens)) (conditional ctx operand fuel word tokens) := by
  induction fuel generalizing word tokens with
  | zero => trivial
  | succ fuel ih =>
    refine (spends_layout hword).took_cons ?_
    refine (takes_expression hop).andThen fun condition rest cs hcondition => ?_
    refine (takes_block hop).andThen fun consequence rest ls hconsequence => ?_
    refine (spends_join rest).gives ?_
    dsimp only
    generalize joinBranches rest = rest
    split
    · exact gives_ok (by simpa using .conditional hcondition hconsequence)
    · next t rest =>
      split
      · next hkind =>
        have hleaf : t.kind.isLeaf = false := by rw [hkind]; rfl
        refine gives_bind (gives_of_took (ih hleaf rest)) fun alternative last rs halternative => ?_
        exact gives_ok (by simpa using .otherwise hcondition hconsequence halternative)
      · split
        · next hkind =>
          refine (spends_layout (by rw [hkind]; rfl)).gives ?_
          refine (takes_block hop).andThen fun alternative last rs halternative => ?_
          exact gives_ok (by simpa using .otherwise hcondition hconsequence halternative)
        · exact gives_ok (by simpa using .conditional hcondition hconsequence)

theorem takes_definition (hop : Takes Expr.Reading operand) (start : Token) (tag : Option String) :
    Takes (fun e ls => e.Reading (tag.toList.map .tag ++ ls))
      (definition ctx operand start tag) := by
  intro tokens
  refine took_bind (takes_name tokens) ?_
  rintro name rest _ rfl
  refine takes_parameters.andThen ?_
  rintro params rest _ rfl
  refine (takes_block hop).andThen fun body last ls hbody => ?_
  exact gives_ok (by simpa using .definition hbody)

theorem took_tagged (hop : Takes Expr.Reading operand) {tag : Token} (htag : tag.kind = .tag)
    (tokens : List Token) :
    Yields (Took Expr.Reading (tag :: tokens)) (tagged ctx operand tag tokens) := by
  have hleaf : Spends (tag :: tokens) tokens [.tag tag.value] :=
    spends_leaf (by rw [htag]; rfl) fun _ => by simp [Token.leaf?, htag]
  refine hleaf.took_cons ((spends_skip tokens).gives ?_)
  refine (takes_layout rfl).andThen ?_
  rintro _ rest _ rfl
  exact gives_mono (gives_of_took (takes_definition hop _ _ rest)) fun _ _ h => h

theorem takes_lambda (hop : Takes Expr.Reading operand) (word : Token) :
    Takes Expr.Reading (lambda ctx operand word) := by
  intro tokens
  refine took_bind (takes_parameters tokens) ?_
  rintro params rest _ rfl
  refine (takes_block hop).andThen fun body last ls hbody => ?_
  exact gives_ok (by simpa using .lambda hbody)

theorem takes_parenthesized (hop : Takes Expr.Reading operand) :
    Takes Expr.Reading (parenthesized ctx operand) := by
  intro tokens
  refine (spends_skip tokens).took ?_
  refine took_bind (takes_expression hop _) fun inner rest ls hinner => ?_
  refine (spends_skip rest).gives ((takes_layout rfl).andThen ?_)
  rintro _ rest _ rfl
  exact gives_ok (by simpa using hinner)

theorem took_nameOrCall (hop : Takes Expr.Reading operand) {t : Token} (ht : t.kind = .name)
    (tokens : List Token) :
    Yields (Took Expr.Reading (t :: tokens)) (nameOrCall ctx operand t tokens) := by
  have hleaf : Spends (t :: tokens) tokens [.name t.value] :=
    spends_leaf (by rw [ht]; rfl) fun _ => by simp [Token.leaf?, ht]
  refine hleaf.took_cons ?_
  simp only [nameOrCall]
  split
  · exact gives_ok .ident
  · next rest heat =>
    obtain ⟨paren, rfl, hparen⟩ := eq_cons_of_eat heat
    have hlayout : Spends (paren :: rest) rest [] := spends_layout (by rw [hparen]; rfl)
    have hargs : Takes (Each Expr.Reading) (delimited ctx .rightParen "`,` or `)`" fun _ =>
      argument ctx operand) := takes_delimited rfl fun _ => takes_argument hop
    refine hlayout.gives (hargs.andThen fun args last ls hargs => ?_)
    obtain ⟨parts, hparts, rfl⟩ := hargs
    exact gives_ok (by simpa using .call .ident hparts)

theorem Each.positional {items : List Expr} {leaves : List Leaf}
    (h : Each Expr.Reading items leaves) : Each Expr.Reading (items.map .positional) leaves :=
  h.map fun _ _ hitem => .positional hitem

theorem took_listLiteral (hop : Takes Expr.Reading operand) {bracket : Token}
    (hkind : bracket.kind = .leftBracket) (tokens : List Token) :
    Yields (Took Expr.Reading (bracket :: tokens)) (listLiteral ctx operand bracket tokens) := by
  have hleaf : Spends (bracket :: tokens) tokens [.bracket] :=
    spends_leaf (by rw [hkind]; rfl) fun _ => by simp [Token.leaf?, hkind]
  have hitems : Takes (Each Expr.Reading) (delimited ctx .rightBracket "`,` or `]`" fun _ =>
    expression ctx operand) := takes_delimited rfl fun _ => takes_expression hop
  refine hleaf.took_cons (hitems.andThen fun items last ls hitems => ?_)
  obtain ⟨parts, hparts, rfl⟩ := hitems.positional
  exact gives_ok (by simpa using .listLiteral hparts)

theorem took_hashLiteral (hop : Takes Expr.Reading operand) {brace : Token}
    (hkind : brace.kind = .leftBrace) (tokens : List Token) :
    Yields (Took Expr.Reading (brace :: tokens)) (hashLiteral ctx operand brace tokens) := by
  have hleaf : Spends (brace :: tokens) tokens [.brace] :=
    spends_leaf (by rw [hkind]; rfl) fun _ => by simp [Token.leaf?, hkind]
  refine hleaf.took_cons
    ((takes_delimited rfl fun _ => takes_pair hop).andThen fun pairs last ls hpairs => ?_)
  have hargs : Each Expr.Reading (pairs.flatMap fun p => [p.1.positional, p.2.positional]) ls := by
    refine hpairs.flatMap ?_
    rintro ⟨key, value⟩ _ ⟨ks, vs, hkey, hvalue, rfl⟩
    exact ⟨[ks, vs], .cons (.positional hkey) (.cons (.positional hvalue) .nil), by simp⟩
  obtain ⟨parts, hparts, rfl⟩ := hargs
  exact gives_ok (by simpa using .hashLiteral hparts)

theorem took_number {t : Token} (ht : t.kind = .number) (tokens : List Token) :
    Yields (Took Expr.Reading (t :: tokens)) (number ctx t tokens) := by
  unfold number
  split
  · next value hvalue =>
    have hleaf : Spends (t :: tokens) tokens [.literal value] :=
      spends_leaf (by rw [ht]; rfl) fun _ => by simp [Token.leaf?, ht, hvalue]
    exact hleaf.took_cons (gives_ok .literal)
  · trivial

/-- A token that is an operand of its own. -/
theorem took_leaf {t : Token} {e : Expr} {leaf : Leaf} {tokens : List Token}
    (hkind : t.kind.isLeaf = true) (h : t.leaf? = some leaf) (he : e.Reading [leaf]) :
    Yields (Took Expr.Reading (t :: tokens)) (.ok (e, tokens)) :=
  (spends_leaf hkind fun _ => h).took_cons (gives_ok he)

theorem takes_form (hop : Takes Expr.Reading operand) : Takes Expr.Reading (form ctx operand) := by
  intro tokens
  cases tokens with
  | nil => trivial
  | cons t rest =>
    simp only [form]
    split
    case h_1 hkind =>
      refine (spends_layout (by rw [hkind]; rfl)).took_cons ?_
      exact hop.andThen fun _ _ _ h => gives_ok (by simpa using .async h)
    case h_2 hkind =>
      refine (spends_layout (by rw [hkind]; rfl)).took_cons ?_
      exact hop.andThen fun _ _ _ h => gives_ok (by simpa using .await h)
    case h_3 hkind => exact took_tagged hop hkind rest
    case h_4 hkind =>
      refine (spends_layout (by rw [hkind]; rfl)).took_cons ?_
      exact gives_of_took (takes_definition hop t none rest)
    case h_5 hkind =>
      refine (spends_layout (by rw [hkind]; rfl)).took_cons ?_
      exact gives_of_took (takes_lambda hop t rest)
    case h_6 hkind => exact took_conditional hop _ (by rw [hkind]; rfl) rest
    case h_7 hkind => exact took_listLiteral hop hkind rest
    case h_8 hkind => exact took_hashLiteral hop hkind rest
    case h_9 hkind =>
      refine (spends_layout (by rw [hkind]; rfl)).took_cons ?_
      exact gives_of_took (takes_parenthesized hop rest)
    case h_10 hkind => exact took_nameOrCall hop hkind rest
    case h_11 hkind => exact took_number hkind rest
    case h_12 hkind | h_13 hkind | h_14 hkind | h_15 hkind =>
      exact took_leaf (by rw [hkind]; rfl) (by simp [Token.leaf?, hkind]) .literal
    case h_16 hkind => exact (spends_symbol hkind rest).took_cons (gives_ok .symbol)
    case h_17 => trivial

end Readers

theorem takes_operand (ctx : Context) (depth : Nat) : Takes Expr.Reading (operand ctx depth) := by
  induction depth with
  | zero => exact fun _ => trivial
  | succ depth ih => exact takes_form ih

theorem gives_endExpression {ctx : Context} (tokens : List Token) :
    Yields (fun rest => Spends tokens rest []) (endExpression ctx tokens) := by
  cases tokens with
  | nil => exact spends_refl []
  | cons t rest =>
    simp only [endExpression]
    split
    · next hkind => exact spends_layout (by rw [hkind]; rfl)
    · trivial

/-- A program is read from the leaves of all tokens, which no error ends. -/
theorem gives_programFrom {ctx : Context} (fuel : Nat) (tokens : List Token) :
    Yields (fun program => ctx.failure = none ∧
      ∃ leaves, Each Expr.Reading program leaves ∧ Spends tokens [] leaves)
      (programFrom ctx fuel tokens) := by
  induction fuel generalizing tokens with
  | zero => trivial
  | succ fuel ih =>
    have hskip := spends_skip tokens
    simp only [programFrom, programRound]
    split
    · next heq =>
      rw [heq] at hskip
      split
      · trivial
      · next hfailure => exact ⟨hfailure, [], each_nil, hskip⟩
    · next t rest heq =>
      rw [heq] at hskip
      refine (takes_expression (takes_operand ctx maxDepth) (t :: rest)).bind ?_
      rintro ⟨e, rest⟩ ⟨⟨ls, he, hspends⟩, -⟩
      refine (gives_endExpression rest).bind fun last hend => ?_
      refine (ih last).bind ?_
      rintro others ⟨hfailure, leaves, hothers, hspends'⟩
      exact ⟨hfailure, ls ++ leaves, hothers.cons he,
        (hskip.trans hspends).trans (hend.trans hspends')⟩

end Parser

end Teal
