import Teal.Proofs.Grammar
import Teal.Proofs.Precedence
import Teal.Proofs.Shapes
import Teal.Proofs.Spacing
import Teal.Proofs.Terminators

/-!
# How deep expressions nest

The parser counts the operands that it reads inside each other and refuses to go deeper than its
limit. What it counts are levels: the arguments of a call, the body of a function, the branches of
a conditional and what `async` and `await` stand before are one level deeper. The operators of a
chain are not counted, nor is an `elif` after the `if`, and both make a tree grow by a node each.
So the limit bounds the tree of a program by the longest of its chains, and no tree without that.

## Main definitions

* `Expr.height`: the height of a tree.
* `Expr.levels`: the levels of operands that are counted.
* `Expr.chainLength`: how many nodes that are not counted stand below each other.

## Main statements

* `Parser.levels_operand`: operands have as many levels as may be read.
* `Expr.Shaped.height_le`: levels and chains bound the height.
* `height_of_parse`: so does the limit, together with the chains.
* `height_unbounded`: the limit alone does not.
-/

namespace Teal

namespace Expr

mutual

/-- The height of an expression as a tree: how many nodes stand below each other. -/
def height : Expr → Nat
  | .ident .. | .symbol .. | .literal .. => 1
  | .binary _ _ left right => 1 + max (height left) (height right)
  | .async _ inner | .await _ inner => 1 + height inner
  | .call _ callee args => 1 + max (height callee) (heightOfAll args)
  | .argument _ keyword value => 1 + max (heightOfOption keyword) (height value)
  | .lambda _ _ body | .definition _ _ _ body _ => 1 + height body
  | .conditional _ condition consequence alternative =>
    1 + max (height condition) (max (height consequence) (heightOfOption alternative))
  | .block _ items => 1 + heightOfAll items

def heightOfAll : List Expr → Nat
  | [] => 0
  | e :: rest => max (height e) (heightOfAll rest)

def heightOfOption : Option Expr → Nat
  | none => 0
  | some e => height e

end

mutual

/-- The levels of operands in an expression, itself counted. A chain of operators has the levels of
its operands, and an `elif` is on the level of its `if`. -/
def levels : Expr → Nat
  | .ident .. | .symbol .. | .literal .. => 1
  | .binary _ _ left right => max (levels left) (levels right)
  | .async _ inner | .await _ inner => 1 + levels inner
  | .call _ _ args => 1 + levelsOfAll args
  | .argument _ _ value => levels value
  | .lambda _ _ body | .definition _ _ _ body _ => 1 + levels body
  | .conditional _ condition consequence alternative =>
    max (1 + max (levels condition) (levels consequence)) (levelsOfElse alternative)
  | .block _ items => levelsOfAll items

def levelsOfAll : List Expr → Nat
  | [] => 0
  | e :: rest => max (levels e) (levelsOfAll rest)

def levelsOfElse : Option Expr → Nat
  | none => 0
  | some e => if e.isConditional then levels e else 1 + levels e

end

mutual

/-- How many nodes that are not counted stand below each other from an expression on: the operators
of a chain, and the conditionals with an `elif`. -/
def chainLength : Expr → Nat
  | .binary _ _ left right => 1 + max (chainLength left) (chainLength right)
  | .conditional _ _ _ alternative => chainLengthOfElse alternative
  | _ => 0

def chainLengthOfElse : Option Expr → Nat
  | none => 0
  | some e => if e.isConditional then 1 + chainLength e else 0

end

/-! ### Heights and levels of parts -/

variable {e : Expr} {es : List Expr} {n : Nat}

theorem heightOfAll_le_iff : heightOfAll es ≤ n ↔ ∀ e ∈ es, e.height ≤ n := by
  induction es with
  | nil => simp [heightOfAll]
  | cons e rest ih => rw [heightOfAll, Nat.max_le, ih, List.forall_mem_cons]

theorem height_pos (e : Expr) : 0 < e.height := by
  cases e <;> simp only [height] <;> omega

theorem levelsOfAll_le_iff : levelsOfAll es ≤ n ↔ ∀ e ∈ es, e.levels ≤ n := by
  induction es with
  | nil => simp [levelsOfAll]
  | cons e rest ih => rw [levelsOfAll, Nat.max_le, ih, List.forall_mem_cons]

/-- A tree is one node higher than the highest of its parts. -/
theorem height_le_iff : e.height ≤ n + 1 ↔ ∀ part ∈ e.parts, part.height ≤ n := by
  cases e with
  | argument _ keyword _ => cases keyword <;> simp [height, heightOfOption, parts] <;> omega
  | conditional _ _ _ alternative =>
    cases alternative <;> simp [height, heightOfOption, parts] <;> omega
  | call => simp [height, parts, ← heightOfAll_le_iff]; omega
  | block => simp [height, parts, ← heightOfAll_le_iff]; omega
  | _ => simp [height, parts] <;> omega

/-- How far an expression may go on before a node is counted: the chain that starts there, or one
below an argument or a block. -/
def reach (chain : Nat) (e : Expr) : Place → Nat
  | .operand => e.chainLength
  | .argument | .body => chain + 1

variable {chain : Nat}

/-- No chain from a node of an expression on is longer than `chain`. -/
def ChainsWithin (chain : Nat) (e : Expr) : Prop :=
  ∀ node : Expr, node.Within e → node.chainLength ≤ chain

theorem ChainsWithin.of_part {part : Expr} (h : e.ChainsWithin chain) (hpart : part ∈ e.parts) :
    part.ChainsWithin chain :=
  fun node hnode => h node (.part hnode hpart)

theorem chainsWithin_iff : e.ChainsWithin chain ↔
    e.chainLength ≤ chain ∧ ∀ part ∈ e.parts, part.ChainsWithin chain := by
  refine ⟨fun h => ⟨h e .self, fun part hpart => h.of_part hpart⟩, fun ⟨hself, hparts⟩ => ?_⟩
  intro node hnode
  cases hnode with
  | self => exact hself
  | part hnode hpart => exact hparts _ hpart node hnode

theorem chainLength_le_height (e : Expr) : e.chainLength ≤ e.height := by
  induction e with
  | binary _ _ left right ihLeft ihRight =>
    simp only [chainLength, height]
    omega
  | conditional _ _ _ alternative _ _ ihAlternative =>
    cases alternative with
    | none => exact Nat.zero_le _
    | some e =>
      have := ihAlternative e rfl
      simp only [chainLength, chainLengthOfElse, height, heightOfOption]
      split <;> omega
  | _ => exact Nat.zero_le _

theorem height_part_le {part : Expr} (hpart : part ∈ e.parts) : part.height ≤ e.height := by
  obtain ⟨m, hm⟩ := Nat.exists_eq_add_of_le' e.height_pos
  have := height_le_iff.mp (Nat.le_of_eq hm) part hpart
  omega

/-- A chain goes down in the tree, so it is not longer than the tree is high. -/
theorem chainsWithin_of_height_le (h : e.height ≤ chain) : e.ChainsWithin chain := by
  intro node hnode
  induction hnode with
  | self => exact Nat.le_trans node.chainLength_le_height h
  | part _ hpart ih => exact ih (Nat.le_trans (height_part_le hpart) h)

theorem ChainsWithin.reach_le (h : e.ChainsWithin chain) (place : Place) :
    e.reach chain place ≤ chain + 1 := by
  have := h e .self
  cases place <;> simp only [reach] <;> omega

/-- What is a level deeper is lower than what may stand on the level. -/
theorem height_lt_of_deeper {place : Place} (hchain : e.ChainsWithin chain) (hlevels : 0 < n)
    (h : e.height ≤ (chain + 2) * (n - 1) + e.reach chain place) :
    e.height < (chain + 2) * n := by
  obtain ⟨m, rfl⟩ := Nat.exists_eq_add_of_le' hlevels
  have := hchain.reach_le place
  rw [Nat.mul_succ]
  simp only [Nat.add_sub_cancel] at h
  omega

/-- A node that is counted is a level higher than its parts at most. -/
theorem height_le_of_counted (hchain : e.ChainsWithin chain) (hlevels : 0 < n)
    (h : ∀ part ∈ e.parts, part.ChainsWithin chain → ∃ place : Place,
      part.height ≤ (chain + 2) * (n - 1) + part.reach chain place) :
    e.height ≤ (chain + 2) * n := by
  have hpos : 0 < (chain + 2) * n := Nat.mul_pos (Nat.succ_pos _) hlevels
  obtain ⟨bound, hbound⟩ := Nat.exists_eq_add_of_le' hpos
  rw [hbound, height_le_iff]
  intro part hpart
  have hbelow := hchain.of_part hpart
  obtain ⟨place, hheight⟩ := h part hpart hbelow
  have := height_lt_of_deeper hbelow hlevels hheight
  omega

/-- An expression of the grammar is at most as high as its levels allow, if its chains are not
longer than `chain`: each level has a node that is counted, a block or an argument, and a chain. -/
theorem Shaped.height_le {place : Place} (h : e.Shaped place) (hchain : e.ChainsWithin chain)
    (hlevels : e.levels ≤ n) : e.height ≤ (chain + 2) * n + e.reach chain place := by
  induction h generalizing n with
  | ident | symbol | literal =>
    exact Nat.le_add_right_of_le (height_le_of_counted hchain hlevels (by simp [Expr.parts]))
  | @binary _ _ left right _ _ ihLeft ihRight =>
    obtain ⟨hleft, hright⟩ := Nat.max_le.mp hlevels
    have := ihLeft (hchain.of_part (by simp [Expr.parts])) hleft
    have := ihRight (hchain.of_part (by simp [Expr.parts])) hright
    simp only [height, chainLength, reach] at *
    omega
  | @async _ inner _ ih | @await _ inner _ ih =>
    have hinner : 1 + inner.levels ≤ n := hlevels
    refine Nat.le_add_right_of_le (height_le_of_counted hchain (by omega) ?_)
    simpa [Expr.parts] using fun h => ⟨_, ih h (by omega)⟩
  | @call _ _ _ args _ ih =>
    have hargs : 1 + levelsOfAll args ≤ n := hlevels
    have hlevels : ∀ a ∈ args, a.levels ≤ n - 1 := levelsOfAll_le_iff.mp (by omega)
    refine Nat.le_add_right_of_le (height_le_of_counted hchain (by omega) ?_)
    refine List.forall_mem_cons.mpr
      ⟨fun _ => ⟨.body, ?_⟩, fun a ha h => ⟨_, ih a ha h (hlevels a ha)⟩⟩
    simp only [height, reach]
    omega
  | @positional _ value _ ih | @keyword _ _ _ value _ ih =>
    have hvalue : value.ChainsWithin chain := hchain.of_part (by simp [Expr.parts])
    have hheight := ih hvalue hlevels
    have hlength := hvalue value .self
    have := value.height_pos
    simp only [height, heightOfOption, reach] at *
    omega
  | block _ _ ih =>
    have hitems := levelsOfAll_le_iff.mp hlevels
    refine height_le_iff.mpr fun item hitem => ?_
    have hbelow := hchain.of_part hitem
    have hheight := ih item hitem hbelow (hitems item hitem)
    exact Nat.le_trans hheight (Nat.add_le_add_left (hbelow item .self) _)
  | @lambda _ _ body _ _ ih | @definition _ _ _ body _ _ _ ih =>
    have hbody : 1 + body.levels ≤ n := hlevels
    refine Nat.le_add_right_of_le (height_le_of_counted hchain (by omega) ?_)
    simpa [Expr.parts] using fun h => ⟨_, ih h (by omega)⟩
  | @conditional _ condition consequence _ _ ihCondition ihConsequence =>
    have hparts : max (1 + max condition.levels consequence.levels) 0 ≤ n := hlevels
    refine Nat.le_add_right_of_le (height_le_of_counted hchain (by omega) ?_)
    simpa [Expr.parts] using ⟨fun h => ⟨_, ihCondition h (by omega)⟩,
      fun h => ⟨_, ihConsequence h (by omega)⟩⟩
  | @otherwise _ condition consequence alternative _ _ halternative ihCondition ihConsequence
      ihAlternative =>
    have helse : levelsOfElse (some alternative) = 1 + alternative.levels := by
      cases halternative with
      | block => rfl
    have hparts : max (1 + max condition.levels consequence.levels)
        (levelsOfElse (some alternative)) ≤ n := hlevels
    refine Nat.le_add_right_of_le (height_le_of_counted hchain (by omega) ?_)
    simpa [Expr.parts] using ⟨fun h => ⟨_, ihCondition h (by omega)⟩,
      fun h => ⟨_, ihConsequence h (by omega)⟩, fun h => ⟨_, ihAlternative h (by omega)⟩⟩
  | @elif _ condition consequence _ _ _ alternative' _ _ _ ihCondition ihConsequence
      ihAlternative =>
    obtain ⟨hdeeper, halternative⟩ := Nat.max_le.mp hlevels
    have hcondition : condition.ChainsWithin chain := hchain.of_part (by simp [Expr.parts])
    have hconsequence : consequence.ChainsWithin chain := hchain.of_part (by simp [Expr.parts])
    have hfirst := height_lt_of_deeper hcondition (by omega)
      (ihCondition hcondition (n := n - 1) (by omega))
    have hsecond := height_lt_of_deeper hconsequence (by omega)
      (ihConsequence hconsequence (n := n - 1) (by omega))
    have hthird := ihAlternative (hchain.of_part (by simp [Expr.parts])) halternative
    simp only [height, heightOfOption, reach, chainLength, chainLengthOfElse, isConditional] at *
    simp
    omega

end Expr

namespace Parser

abbrev ReadsLevels (depth : Nat) (r : Reader Expr) : Prop :=
  Reads (fun e => e.levels ≤ depth) r

section Levels

variable {ctx : Context} {operand : Reader Expr} {depth : Nat}

/-- A chain is on the level of its operands. -/
theorem levels_expression (hop : ReadsLevels depth operand) :
    ReadsLevels depth (expression ctx operand) :=
  KeptByOperators.expression (fun hleft hright => Nat.max_le.mpr ⟨hleft, hright⟩) hop

theorem levels_block (hop : ReadsLevels depth operand) :
    Reads (fun e => e.levels ≤ depth ∧ e.isConditional = false) (block ctx operand) := by
  refine fun tokens => (reads_block (levels_expression hop) tokens).mono ?_
  rintro ⟨_, rest⟩ ⟨loc, items, rfl, -, hitems⟩
  exact ⟨Expr.levelsOfAll_le_iff.mpr hitems, rfl⟩

theorem levels_callNamed {loc : Location} {name : String} {args : List Expr}
    (h : ∀ a ∈ args, a.levels ≤ depth) : (Expr.callNamed loc name args).levels ≤ depth + 1 := by
  have := Expr.levelsOfAll_le_iff.mpr h
  simp only [Expr.callNamed, Expr.levels]
  omega

theorem levels_argument (hop : ReadsLevels depth operand) :
    ReadsLevels depth (argument ctx operand) := by
  refine fun tokens => (reads_argument (levels_expression hop) tokens).mono ?_
  rintro ⟨_, rest⟩ ⟨loc, keyword, value, rfl, -, hvalue⟩
  exact hvalue

/-- An `elif` is read on the level of its `if`. -/
theorem levels_conditional (hop : ReadsLevels depth operand) (fuel : Nat) (word : Token) :
    Reads (fun e => e.levels ≤ depth + 1 ∧ e.isConditional = true)
      (conditional ctx operand fuel word) := by
  induction fuel generalizing word with
  | zero => exact fun _ => trivial
  | succ fuel ih =>
    intro tokens
    refine .bindParsed (levels_expression hop tokens) fun condition rest hcondition => ?_
    refine .bindParsed (levels_block hop rest) fun consequence rest' hconsequence => ?_
    have done {alternative : Option Expr} (h : Expr.levelsOfElse alternative ≤ depth + 1) :
        (Expr.conditional (ctx.loc word) condition consequence alternative).levels ≤ depth + 1 := by
      simp only [Expr.levels] at *
      omega
    dsimp only
    split
    · exact ⟨done (Nat.zero_le _), rfl⟩
    · next token others _ =>
      split
      · refine .bindParsed (ih token others) fun alternative last hread => ?_
        exact ⟨done (by simpa [Expr.levelsOfElse, hread.2] using hread.1), rfl⟩
      · split
        · refine .bindParsed (levels_block hop others) fun alternative last hread => ?_
          have helse : Expr.levelsOfElse (some alternative) = alternative.levels + 1 := by
            rw [Expr.levelsOfElse, if_neg (by simp [hread.2]), Nat.add_comm]
          exact ⟨done (helse ▸ Nat.succ_le_succ hread.1), rfl⟩
        · exact ⟨done (Nat.zero_le _), rfl⟩

theorem levels_definition (hop : ReadsLevels depth operand) (start : Token) (tag : Option String) :
    ReadsLevels (depth + 1) (definition ctx operand start tag) := by
  intro tokens
  refine .bindParsed (forward_expect _ _ tokens) fun name rest _ => ?_
  refine .bindParsed (nodup_parameters rest) fun params rest' _ => ?_
  refine .bindParsed (levels_block hop rest') fun body last hbody => ?_
  exact Nat.add_comm depth 1 ▸ Nat.add_le_add_left hbody.1 1

theorem levels_lambda (hop : ReadsLevels depth operand) (word : Token) :
    ReadsLevels (depth + 1) (lambda ctx operand word) := by
  intro tokens
  refine .bindParsed (nodup_parameters tokens) fun params rest _ => ?_
  refine .bindParsed (levels_block hop rest) fun body last hbody => ?_
  exact Nat.add_comm depth 1 ▸ Nat.add_le_add_left hbody.1 1

theorem levels_parenthesized (hop : ReadsLevels depth operand) :
    ReadsLevels depth (parenthesized ctx operand) := by
  intro tokens
  refine .bindParsed (levels_expression hop _) fun inner rest hinner => ?_
  exact .bindParsed (forward_expect _ _ _) fun _ _ _ => hinner

theorem levels_nameOrCall (hop : ReadsLevels depth operand) (token : Token) :
    ReadsLevels (depth + 1) (nameOrCall ctx operand token) := by
  intro tokens
  simp only [nameOrCall]
  split
  · exact Nat.le_add_left 1 depth
  · exact .bindParsed (reads_items (levels_argument hop) _) fun _ _ hargs => levels_callNamed hargs

theorem levels_listLiteral (hop : ReadsLevels depth operand) (bracket : Token) :
    ReadsLevels (depth + 1) (listLiteral ctx operand bracket) := by
  refine fun tokens => .bindParsed (reads_items (levels_expression hop) tokens) fun items _ h => ?_
  exact levels_callNamed (List.forall_mem_map.mpr h)

theorem levels_hashLiteral (hop : ReadsLevels depth operand) (brace : Token) :
    ReadsLevels (depth + 1) (hashLiteral ctx operand brace) := by
  refine fun tokens =>
    .bindParsed (reads_items (reads_pair (levels_expression hop)) tokens) fun pairs _ h => ?_
  refine levels_callNamed fun a ha => ?_
  obtain ⟨p, hp, ha⟩ := List.mem_flatMap.mp ha
  simp only [List.mem_cons, List.not_mem_nil, or_false] at ha
  obtain rfl | rfl := ha
  · exact (h p hp).1
  · exact (h p hp).2

theorem levels_number (token : Token) : ReadsLevels 1 (number ctx token) := by
  intro tokens
  unfold number
  split
  · exact Nat.le_refl 1
  · trivial

/-- An operand has one level more than those inside it may have. -/
theorem levels_form (hop : ReadsLevels depth operand) :
    ReadsLevels (depth + 1) (form ctx operand) := by
  have leaf : 1 ≤ depth + 1 := Nat.le_add_left 1 depth
  have deeper {e : Expr} (h : e.levels ≤ depth) : 1 + e.levels ≤ depth + 1 := by omega
  intro tokens
  cases tokens with
  | nil => trivial
  | cons token rest =>
    simp only [form]
    split
    · exact .bindParsed (hop rest) fun _ _ h => deeper h
    · exact .bindParsed (hop rest) fun _ _ h => deeper h
    · exact .bindParsed (forward_expect _ _ _) fun _ rest _ => levels_definition hop _ _ rest
    · exact levels_definition hop token none rest
    · exact levels_lambda hop token rest
    · exact (levels_conditional hop _ token rest).mono fun _ h => h.1
    · exact levels_listLiteral hop token rest
    · exact levels_hashLiteral hop token rest
    · exact (levels_parenthesized hop rest).mono fun _ h => Nat.le_succ_of_le h
    · exact levels_nameOrCall hop token rest
    · exact (levels_number token rest).mono fun _ h => Nat.le_trans h leaf
    · exact leaf
    · exact leaf
    · exact leaf
    · exact leaf
    · exact leaf
    · trivial

end Levels

/-- Operands have as many levels as may be read. -/
theorem levels_operand (ctx : Context) (depth : Nat) : ReadsLevels depth (operand ctx depth) := by
  induction depth with
  | zero => exact fun _ => trivial
  | succ depth ih => exact fun tokens => levels_form ih tokens

theorem levels_programFrom {ctx : Context} (fuel : Nat) (tokens : List Token) :
    Yields (fun program => ∀ e ∈ program, e.levels ≤ maxDepth) (programFrom ctx fuel tokens) :=
  reads_programFrom (levels_expression (levels_operand ctx maxDepth)) fuel tokens

end Parser

/-! ### Chains of any length -/

def eitherOf : Nat → List Token
  | 0 => [⟨.name, "x", 1, 0⟩]
  | n + 1 => ⟨.name, "x", 1, 0⟩ :: ⟨(BinaryOp.calculate .or).kind, "||", 1, 0⟩ :: eitherOf n

def Source.eitherOf (n : Nat) : Source where
  filename := "either.tl"
  text := Token.write (Teal.eitherOf n)

namespace Token

theorem legible_eitherOf (n : Nat) : Legible false (eitherOf n) := by
  have name {afterOperand : Bool} : Lexeme.Rereads afterOperand .name ['x'] := by
    have hread : Lexeme.read afterOperand 'x' [] = .token .name ['x'] 1 := by
      cases afterOperand <;> decide +kernel
    exact Lexeme.rereads_of_read hread
  have mark {afterOperand : Bool} :
      Lexeme.Rereads afterOperand (BinaryOp.calculate .or).kind ['|', '|'] := by
    have hread : Lexeme.read afterOperand '|' ['|'] =
        .token (BinaryOp.calculate .or).kind ['|', '|'] 2 := by
      cases afterOperand <;> decide +kernel
    exact Lexeme.rereads_of_read hread
  induction n with
  | zero => exact .cons name .nil
  | succ n ih => exact .cons name (.cons mark ih)

/-- Tokens among which nothing asks for a terminator get one at the end. -/
theorem terminateFrom_of_words {ts : List Token} (h : ∀ t ∈ ts, t.isWord ∧ t.kind ≠ .rightBrace)
    (hne : ts ≠ []) (last : Option Kind) :
    ∃ t : Token, t.kind = .terminator ∧ terminateFrom false last ts = ts ++ [t] := by
  induction ts generalizing last with
  | nil => contradiction
  | cons first rest ih =>
    obtain ⟨⟨hword, hbrace⟩, hrest⟩ := List.forall_mem_cons.mp h
    have hkind := (isWord_iff.mp hword).2
    cases rest with
    | nil =>
      refine ⟨first.separator, rfl, ?_⟩
      rw [terminateFrom, if_neg (by decide), terminated_word hword]
      simp [needsTerminator, hkind]
    | cons next rest =>
      obtain ⟨hnext, hnextBrace⟩ := hrest next List.mem_cons_self
      have hwritten : terminated last first next.kind = [first] := by
        rw [terminated_word hword]
        simp [needsTerminator, hbrace, hnextBrace, (isWord_iff.mp hnext).1]
      obtain ⟨t, ht, hterminated⟩ := ih hrest (List.cons_ne_nil _ _) (lastKind last [first])
      exact ⟨t, ht, by rw [terminateFrom, hwritten, hterminated]; rfl⟩

theorem of_mem_eitherOf {n : Nat} {t : Token} (h : t ∈ eitherOf n) :
    t.kind = .name ∨ t.kind = (BinaryOp.calculate .or).kind := by
  induction n with
  | zero => simp_all [eitherOf]
  | succ n ih => grind [eitherOf]

end Token

namespace Parser

/-- The chain spells a tree that grows to the right by a node for each operator. -/
theorem spells_eitherOf (ctx : Context) {n : Nat} {tokens : List Token}
    (h : tokens.map Token.face = (eitherOf n).map Token.face) :
    ∃ t : OperatorTree, t.Conforming ∧ (∀ op ∈ t.root?, op = .calculate .or) ∧
      Spells ctx tokens t.reading.1 t.reading.2 ∧ n < t.toExpr.height := by
  have atom {token : Token} (h : token.face = (.name, "x")) :
      atom? ctx token = some (.ident (ctx.loc token) "x") := by
    obtain ⟨hkind, hvalue⟩ := Prod.mk.inj h
    simp [atom?, hkind, hvalue]
  induction n generalizing tokens with
  | zero =>
    obtain ⟨token, rest, rfl, hname, hrest⟩ := List.map_eq_cons_iff.mp h
    obtain rfl := List.map_eq_nil_iff.mp hrest
    exact ⟨.operand _, trivial, by simp [OperatorTree.root?], .last (atom hname), Expr.height_pos _⟩
  | succ n ih =>
    obtain ⟨token, rest, rfl, hname, hrest⟩ := List.map_eq_cons_iff.mp h
    obtain ⟨mark, tokens, rfl, hmark, htokens⟩ := List.map_eq_cons_iff.mp hrest
    obtain ⟨t, hconforming, hroot, hspells, hheight⟩ := ih htokens
    have hop : BinaryOp.ofKind? mark.kind = some (.calculate .or) := by
      rw [(Prod.mk.inj hmark).1]
      rfl
    refine ⟨.node (.calculate .or) (.operand (.ident (ctx.loc token) "x")) t, ?_, ?_,
      .more (atom hname) hop hspells, ?_⟩
    · refine ⟨trivial, hconforming, by simp [OperatorTree.root?], fun inner hinner => ?_⟩
      rw [hroot inner hinner]
      exact .inr ⟨rfl, rfl⟩
    · simp [OperatorTree.root?]
    · simp only [OperatorTree.toExpr, Expr.height]
      omega

theorem Spells.kind_ne_terminator {ctx : Context} {token : Token} {after : List Token}
    {first : Expr} {later : List (BinaryOp × Expr)} (h : Spells ctx (token :: after) first later) :
    token.kind ≠ .terminator := by
  intro hkind
  cases h with
  | last hatom | more hatom => simp [atom?, hkind] at hatom

/-- Tokens that spell a tree, and a terminator, are a program of the tree. -/
theorem programFrom_of_spells {ctx : Context} (hctx : ctx.failure = none) {tokens : List Token}
    {t : OperatorTree} (hconforming : t.Conforming)
    (hspells : Spells ctx tokens t.reading.1 t.reading.2) {ended : Token}
    (hended : ended.kind = .terminator) {fuel : Nat} :
    programFrom ctx (fuel + 2) (tokens ++ [ended]) = .ok [t.toExpr] := by
  obtain ⟨token, after, rfl⟩ := List.exists_cons_of_ne_nil hspells.ne_nil
  have hkind := hspells.kind_ne_terminator
  have hstops : Stops [ended] := by simp [Stops, hended, BinaryOp.ofKind?]
  have hcall : Uncalled (token :: after) [ended] := fun _ _ _ => by simp [eat?, hended]
  have hread : expression ctx (operand ctx maxDepth) (token :: (after ++ [ended])) =
      .ok (t.toExpr, [ended]) :=
    ((expression_of_spells hspells hstops hcall 255).1 t hconforming rfl).1
  simp only [List.cons_append, programFrom, programRound, skipTerminators_cons hkind, hread,
    endExpression, hended, if_pos, bind, Except.bind]
  simp [skipTerminators, hctx]

/-- A chain of operators is read, however long it is. -/
theorem parse_eitherOf (n : Nat) : ∃ e, (Source.eitherOf n).parse = .ok [e] ∧ n < e.height := by
  obtain ⟨hfaces, hfault⟩ :=
    (Token.spaced_write (eitherOf n)).scanLexemes (Token.legible_eitherOf n) .start
  have hlex := (Source.eitherOf n).lex_eq
  have htext : (Source.eitherOf n).text.toList = (Token.write (eitherOf n)).toList := rfl
  rw [htext, hfault] at hlex
  generalize (Token.scanLexemes false .start (Token.write (eitherOf n)).toList).1 = tokens
    at hfaces hlex
  have hwords : ∀ t ∈ tokens, t.isWord ∧ t.kind ≠ .rightBrace := by
    intro t ht
    have hmem : t.face ∈ (eitherOf n).map Token.face := hfaces ▸ List.mem_map_of_mem ht
    obtain ⟨u, hu, hface⟩ := List.mem_map.mp hmem
    have hkind : u.kind = t.kind := congrArg Prod.fst hface
    rw [Token.isWord_iff, ← hkind]
    rcases Token.of_mem_eitherOf hu with h | h <;> rw [h] <;> decide
  obtain ⟨ended, hended, hterminated⟩ := Token.terminateFrom_of_words hwords (by
    rintro rfl
    cases n <;> simp [eitherOf] at hfaces) none
  let ctx : Context := ⟨(Source.eitherOf n).locate, (Source.eitherOf n).endIndex, none⟩
  obtain ⟨t, hconforming, -, hspells, hheight⟩ := spells_eitherOf ctx hfaces
  refine ⟨t.toExpr, ?_, hheight⟩
  have hprogram : programFrom ctx (tokens.length + 2) (tokens ++ [ended]) = .ok [t.toExpr] :=
    programFrom_of_spells rfl hconforming hspells hended
  rw [Source.parse, hlex]
  simpa [TokenStream.terminate, Source.parseStream, hterminated, program, ctx] using hprogram

end Parser

/-- The parser bounds the levels of what it reads. With a bound on the chains this bounds the height
of the trees, and trees of a bounded height have no longer chains. -/
theorem height_of_parse {source : Source} {program : List Expr} (h : source.parse = .ok program)
    {e : Expr} (he : e ∈ program) :
    e.levels ≤ Parser.maxDepth ∧ ∀ chain,
      (e.ChainsWithin chain → e.height ≤ (chain + 2) * Parser.maxDepth + chain) ∧
      (e.height ≤ chain → e.ChainsWithin chain) := by
  have hlevels : e.levels ≤ Parser.maxDepth := (Parser.levels_programFrom _ _).of_ok h e he
  refine ⟨hlevels, fun chain => ⟨fun hchain => ?_, Expr.chainsWithin_of_height_le⟩⟩
  have hheight := (shaped_of_parse h e he).height_le hchain hlevels
  exact Nat.le_trans hheight (Nat.add_le_add_left (hchain e .self) _)

def Source.choosing : Source where
  filename := "choosing.tl"
  text := "fn main(x) \x7b if x \x7b x \x7d elif x \x7b x - x \x7d \x7d"

def choosing : Expr :=
  let loc := Source.choosing.locate
  let name (index : Nat) : Expr := .ident (loc index) "x"
  .definition (loc 0) "main" ["x"] (.block (loc 11)
    [.conditional (loc 13) (name 16) (.block (loc 18) [name 20])
      (some (.conditional (loc 24) (name 29)
        (.block (loc 31) [.binary (loc 33) (.calculate .sub) (name 33) (name 37)]) none))]) none

theorem chainsWithin_choosing : choosing.ChainsWithin 1 := by
  have name (loc : Location) : (Expr.ident loc "x").ChainsWithin 1 :=
    Expr.chainsWithin_iff.mpr ⟨Nat.zero_le _, by simp [Expr.parts]⟩
  -- each node but the names has a chain of at most one node, and these parts
  repeat' first
    | exact name _
    | refine Expr.chainsWithin_iff.mpr ⟨by decide, ?_⟩
      simp only [choosing, Expr.parts, Option.toList, List.forall_mem_cons, List.not_mem_nil,
        false_implies, implies_true, and_true]
    | constructor

/-- Its chains have one node, which bounds its height. -/
theorem height_of_parse_choosing : Source.choosing.parse = .ok [choosing] ∧
    choosing.ChainsWithin 1 ∧ choosing.levels ≤ Parser.maxDepth ∧
    choosing.height ≤ (1 + 2) * Parser.maxDepth + 1 := by
  have hparse : Source.choosing.parse = .ok [choosing] := rfl
  obtain ⟨hlevels, hheight⟩ := height_of_parse hparse (List.mem_singleton_self choosing)
  exact ⟨hparse, chainsWithin_choosing, hlevels, (hheight 1).1 chainsWithin_choosing⟩

/-- The parser bounds no chain, so it accepts trees of any height. -/
theorem height_unbounded : ¬ ∃ bound, ∀ (source : Source) (program : List Expr),
    source.parse = .ok program → ∀ e ∈ program, e.height ≤ bound := by
  rintro ⟨bound, hbound⟩
  obtain ⟨e, hparse, hheight⟩ := Parser.parse_eitherOf bound
  have := hbound _ _ hparse e (List.mem_singleton_self e)
  omega

end Teal
