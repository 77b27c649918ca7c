import Teal.Proofs.Rendering

/-!
# Powers and grouping of operators

A chain of operands and operators has many trees over it. One of them at most conforms to the powers
and groupings of its operators: an operator has below it only tighter ones, or ones of its own power
on the side to which that power groups. The reader closes operators on a stack as tighter ones end,
and what it builds is the conforming tree; where there is none, two operators of one power that does
not chain meet on the stack.

## Main definitions

* `OperatorTree`: trees of operators over operands, with `reading` from left to right.
* `OperatorTree.Conforming`: the trees that powers and groupings allow.
* `Waiting.group`: what the stack makes of a chain.
* `Parser.Spells`: tokens that spell a chain of single-token operands.

## Main statements

* `OperatorTree.group_reading`: the stack builds every conforming tree from its reading.
* `OperatorTree.exists_of_group`: what the stack builds is a conforming tree.
* `Parser.expression_of_spells`: a chain is read as its one conforming tree, or refused.
-/

namespace Teal

/-- An operator admits another at the top of its operand on a side: a tighter one, or one of its own
power if it groups to that side. -/
def BinaryOp.Admits (side : Grouping) (op inner : BinaryOp) : Prop :=
  op.power < inner.power ∨ inner.power = op.power ∧ op.grouping = side

def Expr.IsPlain (e : Expr) : Prop :=
  ∀ loc op left right, e ≠ .binary loc op left right

inductive OperatorTree
  | operand (e : Expr)
  | node (op : BinaryOp) (left right : OperatorTree)

namespace OperatorTree

def root? : OperatorTree → Option BinaryOp
  | .operand _ => none
  | .node op _ _ => some op

/-- The first operand of a tree, and its operators, each with the operand after it. -/
def reading : OperatorTree → Expr × List (BinaryOp × Expr)
  | .operand e => (e, [])
  | .node op left right =>
    (left.reading.1, left.reading.2 ++ (op, right.reading.1) :: right.reading.2)

/-- Every operator admits what stands at the top of its operands. -/
def Conforming : OperatorTree → Prop
  | .operand _ => True
  | .node op left right => left.Conforming ∧ right.Conforming ∧
    (∀ inner ∈ left.root?, op.Admits .left inner) ∧ ∀ inner ∈ right.root?, op.Admits .right inner

def toExpr : OperatorTree → Expr
  | .operand e => e
  | .node op left right => .binary left.toExpr.loc op left.toExpr right.toExpr

end OperatorTree

/-- What the stack makes of an operand and of operators with operands after it, if it makes anything
of them. -/
def Waiting.group : List Waiting → Expr → List (BinaryOp × Expr) → Option Expr
  | waiting, operand, [] => some (closeAll waiting operand)
  | waiting, operand, (op, next) :: rest =>
    (push op waiting operand).bind fun waiting => group waiting next rest

namespace BinaryOp

/-- An operator that admits another on its left admits there what the other admits on its right. -/
theorem Admits.left_of_right {op o inner : BinaryOp} (h : op.Admits .left o)
    (h' : o.Admits .right inner) : op.Admits .left inner := by
  unfold Admits at *
  grind [grouping_eq_of_power_eq]

theorem Admits.right_of_left {op o inner : BinaryOp} (h : op.Admits .right o)
    (h' : o.Admits .left inner) : op.Admits .right inner := by
  unfold Admits at *
  grind [grouping_eq_of_power_eq]

end BinaryOp

namespace Waiting

/-- An operator that the one on top of the stack admits on its right is put on the stack. -/
theorem push_eq_cons {op : BinaryOp} {ws : List Waiting}
    (h : ∀ w ∈ ws.head?, w.op.Admits .right op) (e : Expr) :
    push op ws e = some (⟨e, op⟩ :: ws) := by
  cases ws with
  | nil => rfl
  | cons w ws =>
    rcases h w rfl with hlt | ⟨hpower, hgrouping⟩
    · simp [push, hlt, Nat.not_lt_of_gt hlt]
    · have hright : op.grouping = .right := BinaryOp.grouping_eq_of_power_eq hpower ▸ hgrouping
      simp [push, hpower, hright]

/-- An operator that admits the one on top of the stack on its left closes it. -/
theorem push_eq_push {op : BinaryOp} {w : Waiting} (h : op.Admits .left w.op) (ws : List Waiting)
    (e : Expr) : push op (w :: ws) e = push op ws (w.close e) := by
  rcases h with hlt | ⟨hpower, hgrouping⟩
  · simp [push, hlt]
  · simp [push, hpower, hgrouping]

end Waiting

namespace OperatorTree

/-! ## A conforming tree is built from its reading -/

/-- The stack when all of a tree is read: the operators down its right side still wait. -/
def unroll : List Waiting → OperatorTree → List Waiting × Expr
  | ws, .operand e => (ws, e)
  | ws, .node op left right => unroll (⟨left.toExpr, op⟩ :: ws) right

theorem closeAll_unroll (ws : List Waiting) (t : OperatorTree) :
    Waiting.closeAll (unroll ws t).1 (unroll ws t).2 = Waiting.closeAll ws t.toExpr := by
  induction t generalizing ws with
  | operand e => rfl
  | node op left right _ ih => exact ih _

/-- An operator that admits a tree on its left closes all of it. -/
theorem push_unroll {op : BinaryOp} {t : OperatorTree} (h : t.Conforming)
    (hop : ∀ inner ∈ t.root?, op.Admits .left inner) (ws : List Waiting) :
    Waiting.push op (unroll ws t).1 (unroll ws t).2 = Waiting.push op ws t.toExpr := by
  induction t generalizing ws with
  | operand e => rfl
  | node o left right _ ih =>
    obtain ⟨-, hright, -, hadmits⟩ := h
    have ho : op.Admits .left o := hop o rfl
    calc Waiting.push op (unroll ws (.node o left right)).1 (unroll ws (.node o left right)).2
      _ = Waiting.push op (⟨left.toExpr, o⟩ :: ws) right.toExpr :=
        ih hright (fun inner hinner => ho.left_of_right (hadmits inner hinner)) _
      _ = Waiting.push op ws (OperatorTree.node o left right).toExpr :=
        Waiting.push_eq_push ho ws right.toExpr

/-- While a tree is read that the operator on top of the stack admits, the stack below it stays. -/
theorem group_unroll {t : OperatorTree} (h : t.Conforming) {ws : List Waiting}
    (hws : ∀ w ∈ ws.head?, ∀ inner ∈ t.root?, w.op.Admits .right inner)
    (rest : List (BinaryOp × Expr)) :
    Waiting.group ws t.reading.1 (t.reading.2 ++ rest) =
      Waiting.group (unroll ws t).1 (unroll ws t).2 rest := by
  induction t generalizing ws rest with
  | operand e => rfl
  | node op left right ihLeft ihRight =>
    obtain ⟨hleft, hright, hadmitsLeft, hadmitsRight⟩ := h
    have hop : ∀ w ∈ ws.head?, w.op.Admits .right op := fun w hw => hws w hw op rfl
    have hpush : Waiting.push op (unroll ws left).1 (unroll ws left).2 =
        some (⟨left.toExpr, op⟩ :: ws) := by
      rw [push_unroll hleft hadmitsLeft, Waiting.push_eq_cons hop]
    rw [reading, List.append_assoc, List.cons_append,
      ihLeft hleft fun w hw inner hinner => (hop w hw).right_of_left (hadmitsLeft inner hinner)]
    rw [Waiting.group, hpush, Option.bind_some, ihRight hright]
    · rfl
    · intro w hw inner hinner
      cases hw
      exact hadmitsRight inner hinner

/-- The stack builds every conforming tree from its reading. -/
theorem group_reading {t : OperatorTree} (h : t.Conforming) :
    Waiting.group [] t.reading.1 t.reading.2 = some t.toExpr := by
  have hread : Waiting.group [] t.reading.1 (t.reading.2 ++ []) =
      Waiting.group (unroll [] t).1 (unroll [] t).2 [] := group_unroll h (by simp) []
  rw [List.append_nil] at hread
  rw [hread, Waiting.group, closeAll_unroll]
  rfl

/-! ## What is built is a conforming tree -/

abbrev Frame := OperatorTree × BinaryOp

def Frame.waiting (f : Frame) : Waiting :=
  ⟨f.1.toExpr, f.2⟩

/-- The tree of a stack and of what is read last. -/
def collapse : List Frame → OperatorTree → OperatorTree
  | [], t => t
  | f :: rest, t => collapse rest (.node f.2 f.1 t)

/-- Every operator on the stack admits the tree on its left, and on its right what comes next:
the operator above it, or `top`. -/
def Stacked : List Frame → Option BinaryOp → Prop
  | [], _ => True
  | f :: rest, top => f.1.Conforming ∧ (∀ inner ∈ f.1.root?, f.2.Admits .left inner) ∧
    (∀ inner ∈ top, f.2.Admits .right inner) ∧ Stacked rest (some f.2)

theorem closeAll_waiting (fs : List Frame) (t : OperatorTree) :
    Waiting.closeAll (fs.map Frame.waiting) t.toExpr = (collapse fs t).toExpr := by
  induction fs generalizing t with
  | nil => rfl
  | cons f rest ih => exact ih (.node f.2 f.1 t)

theorem Stacked.conforming_collapse {fs : List Frame} {t : OperatorTree} (h : Stacked fs t.root?)
    (ht : t.Conforming) : (collapse fs t).Conforming := by
  induction fs generalizing t with
  | nil => exact ht
  | cons f rest ih =>
    obtain ⟨hf, hleft, hright, hrest⟩ := h
    exact ih hrest ⟨hf, ht, hleft, hright⟩

/-- What is read after a tree is read after the stack with this tree. -/
theorem reading_collapse {t t' : OperatorTree} {read : List (BinaryOp × Expr)}
    (h : t'.reading = (t.reading.1, t.reading.2 ++ read)) (fs : List Frame) :
    (collapse fs t').reading = ((collapse fs t).reading.1, (collapse fs t).reading.2 ++ read) := by
  induction fs generalizing t t' with
  | nil => exact h
  | cons f rest ih => exact ih (by simp [reading, h])

/-- What a new operator leaves of the stack: it has the whole stack on its left, or admits with it
what stands above. -/
theorem exists_of_push {op : BinaryOp} {fs : List Frame} {t : OperatorTree} {ws : List Waiting}
    (h : Waiting.push op (fs.map Frame.waiting) t.toExpr = some ws) (hfs : Stacked fs t.root?)
    (ht : t.Conforming) (hop : ∀ inner ∈ t.root?, op.Admits .left inner) :
    ∃ fs' : List Frame, ws = fs'.map Frame.waiting ∧ Stacked fs' none ∧
      ∀ next, (collapse fs' (.operand next)).reading =
        ((collapse fs t).reading.1, (collapse fs t).reading.2 ++ [(op, next)]) := by
  induction fs generalizing t with
  | nil =>
    cases h
    exact ⟨[(t, op)], rfl, ⟨ht, hop, by simp, trivial⟩, fun next => rfl⟩
  | cons f rest ih =>
    obtain ⟨hf, hleft, hright, hrest⟩ := hfs
    -- the operator on top is closed, as the new one admits it on the left
    have closed (hadmits : op.Admits .left f.2)
        (h : Waiting.push op (rest.map Frame.waiting) (f.waiting.close t.toExpr) = some ws) :=
      ih (t := .node f.2 f.1 t) h hrest ⟨hf, ht, hleft, hright⟩
        (by rintro inner ⟨⟩; exact hadmits)
    -- the operator on top stays, as it admits the new one on the right
    have kept (hadmits : f.2.Admits .right op)
        (h : some (⟨t.toExpr, op⟩ :: (f :: rest).map Frame.waiting) = some ws) :
        ∃ fs' : List Frame, ws = fs'.map Frame.waiting ∧ Stacked fs' none ∧
          ∀ next, (collapse fs' (.operand next)).reading = ((collapse (f :: rest) t).reading.1,
            (collapse (f :: rest) t).reading.2 ++ [(op, next)]) := by
      cases h
      refine ⟨(t, op) :: f :: rest, rfl, ⟨ht, hop, by simp, hf, hleft, ?_, hrest⟩, fun next => ?_⟩
      · rintro inner ⟨⟩
        exact hadmits
      · exact reading_collapse rfl (f :: rest)
    simp only [List.map_cons, Waiting.push] at h
    split at h
    · next hlt => exact closed (.inl hlt) h
    · next hle =>
      split at h
      · next hlt => exact kept (.inl hlt) h
      · next hge =>
        have hpower : op.power = f.2.power := by
          change ¬ op.power < f.2.power at hle
          change ¬ f.2.power < op.power at hge
          omega
        have hgrouping : op.grouping = f.2.grouping := BinaryOp.grouping_eq_of_power_eq hpower
        split at h
        · next hg => exact closed (.inr ⟨hpower.symm, hg⟩) h
        · next hg => exact kept (.inr ⟨hpower, hgrouping ▸ hg⟩) h
        · cases h

/-- What the stack makes of a chain is the expression of a conforming tree with that reading. -/
theorem exists_of_group {first e : Expr} {later : List (BinaryOp × Expr)}
    (h : Waiting.group [] first later = some e) :
    ∃ t : OperatorTree, t.Conforming ∧ t.reading = (first, later) ∧ t.toExpr = e := by
  suffices general : ∀ (fs : List Frame) (first : Expr), Stacked fs none →
      Waiting.group (fs.map Frame.waiting) first later = some e →
      ∃ t : OperatorTree, t.Conforming ∧ t.toExpr = e ∧
        t.reading = ((collapse fs (.operand first)).reading.1,
          (collapse fs (.operand first)).reading.2 ++ later) by
    obtain ⟨t, ht, htree, hreading⟩ := general [] first trivial h
    exact ⟨t, ht, hreading, htree⟩
  clear h
  induction later with
  | nil =>
    intro fs first hfs h
    cases h
    refine ⟨collapse fs (.operand first), hfs.conforming_collapse trivial, ?_, by simp⟩
    exact (closeAll_waiting fs (.operand first)).symm
  | cons p later ih =>
    intro fs first hfs h
    obtain ⟨ws, hpush, hgroup⟩ := Option.bind_eq_some_iff.mp h
    obtain ⟨fs', rfl, hfs', hread⟩ := exists_of_push (t := .operand first) hpush hfs trivial
      (by rintro inner ⟨⟩)
    obtain ⟨t, ht, htree, hreading⟩ := ih fs' p.2 hfs' hgroup
    exact ⟨t, ht, htree, by simp [hreading, hread]⟩

def operands (t : OperatorTree) : List Expr :=
  t.reading.1 :: t.reading.2.map Prod.snd

theorem operands_node (op : BinaryOp) (left right : OperatorTree) :
    (node op left right).operands = left.operands ++ right.operands := by
  simp [operands, reading]

/-- Over operands that have no operator at their top, different trees have different expressions. -/
theorem eq_of_toExpr_eq {t t' : OperatorTree} (h : ∀ e ∈ t.operands, e.IsPlain)
    (h' : ∀ e ∈ t'.operands, e.IsPlain) (heq : t.toExpr = t'.toExpr) : t = t' := by
  induction t generalizing t' with
  | operand e =>
    cases t' with
    | operand e' => exact congrArg operand heq
    | node => exact absurd heq (h e (by simp [operands, reading]) _ _ _ _)
  | node op left right ihLeft ihRight =>
    cases t' with
    | operand e' => exact absurd heq.symm (h' e' (by simp [operands, reading]) _ _ _ _)
    | node op' left' right' =>
      rw [operands_node, List.forall_mem_append] at h h'
      obtain ⟨-, rfl, hleft, hright⟩ := Expr.binary.inj heq
      rw [ihLeft h.1 h'.1 hleft, ihRight h.2 h'.2 hright]

end OperatorTree

namespace Parser

/-! ## Chains of tokens -/

def atom? (ctx : Context) (token : Token) : Option Expr :=
  let loc := ctx.loc token
  match token.kind with
  | .number => (Literal.ofNumber? token.value).map (.literal loc)
  | .string => some (.literal loc (.string (Text.unquote token.value)))
  | .kwTrue => some (.literal loc (.boolean true))
  | .kwFalse => some (.literal loc (.boolean false))
  | .kwNull => some (.literal loc .null)
  | .symbol => some (.symbol loc (symbolName token))
  | .name => some (.ident loc token.value)
  | _ => none

/-- Tokens spell a chain: a first operand of one token, and operators, each with an operand of one
token after it. -/
inductive Spells (ctx : Context) : List Token → Expr → List (BinaryOp × Expr) → Prop
  | last {token first} : atom? ctx token = some first → Spells ctx [token] first []
  | more {token first mark op tokens next later} : atom? ctx token = some first →
      BinaryOp.ofKind? mark.kind = some op → Spells ctx tokens next later →
      Spells ctx (token :: mark :: tokens) first ((op, next) :: later)

variable {ctx : Context}

theorem isPlain_of_atom? {token : Token} {e : Expr} (h : atom? ctx token = some e) :
    e.IsPlain := by
  rintro loc op left right rfl
  simp only [atom?] at h
  split at h <;> simp at h

/-- An operand of one token is read, unless it is a name that is called. -/
theorem form_of_atom? {token : Token} {e : Expr} (h : atom? ctx token = some e) {rest : List Token}
    (hcall : token.kind = .name → eat? .leftParen rest = none) (inner : Reader Expr) :
    form ctx inner (token :: rest) = .ok (e, rest) := by
  simp only [atom?] at h
  split at h
  · next hkind =>
    obtain ⟨value, hvalue, rfl⟩ := Option.map_eq_some_iff.mp h
    simp [form, hkind, number, hvalue]
  all_goals cases h
  · next hkind => simp [form, hkind]
  · next hkind => simp [form, hkind]
  · next hkind => simp [form, hkind]
  · next hkind => simp [form, hkind]
  · next hkind => simp [form, hkind]
  · next hkind => simp [form, hkind, nameOrCall, hcall hkind]

theorem Spells.ne_nil {tokens : List Token} {first : Expr} {later : List (BinaryOp × Expr)}
    (h : Spells ctx tokens first later) : tokens ≠ [] := by
  cases h <;> simp

theorem Spells.isPlain {tokens : List Token} {first : Expr} {later : List (BinaryOp × Expr)}
    (h : Spells ctx tokens first later) : ∀ e ∈ first :: later.map Prod.snd, e.IsPlain := by
  induction h with
  | last hatom => simpa using isPlain_of_atom? hatom
  | more hatom _ _ ih => exact List.forall_mem_cons.mpr ⟨isPlain_of_atom? hatom, ih⟩

/-- An operator refused where it stands among tokens, as it would follow one of its own power. -/
def RefusesChain (ctx : Context) (tokens : List Token) (x : Except ParseError (Parsed Expr)) :
    Prop :=
  ∃ mark ∈ tokens, ∃ op, BinaryOp.ofKind? mark.kind = some op ∧ op.grouping = .never ∧
    x = .error (ctx.invalid mark (.chained op))

end Parser

theorem Waiting.never_of_push_eq_none {op : BinaryOp} {ws : List Waiting} {e : Expr}
    (h : push op ws e = none) : op.grouping = .never := by
  fun_induction push op ws e with
  | case1 | case3 | case5 => cases h
  | case2 _ _ _ _ ih | case4 _ _ _ _ _ _ ih => exact ih h
  | case6 _ _ _ _ _ hg => exact hg

namespace Parser

variable {ctx : Context}

/-- No call is made of the last token: if it is a name, no parenthesis follows. -/
def Uncalled (tokens rest : List Token) : Prop :=
  ∀ t ∈ tokens.getLast?, t.kind = .name → eat? .leftParen rest = none

/-- The first operand of a chain is read. -/
theorem operand_of_spells {token : Token} {after rest : List Token} {first : Expr}
    {later : List (BinaryOp × Expr)} (h : Spells ctx (token :: after) first later)
    (hcall : Uncalled (token :: after) rest) (depth : Nat) :
    operand ctx (depth + 1) (token :: (after ++ rest)) = .ok (first, after ++ rest) := by
  cases h with
  | last hatom => exact form_of_atom? hatom (hcall token rfl) _
  | @more _ _ mark op tokens _ _ hatom hmark =>
    have hkind : mark.kind ≠ .leftParen := by
      intro hkind
      simp [hkind, BinaryOp.ofKind?] at hmark
    exact form_of_atom? hatom (fun _ => by simp [eat?, hkind]) _

/-- After its first operand, a chain is read as what the stack makes of it. -/
theorem chain_of_spells {token : Token} {after rest : List Token} {first : Expr}
    {later : List (BinaryOp × Expr)} (h : Spells ctx (token :: after) first later)
    (hrest : Stops rest) (hcall : Uncalled (token :: after) rest) (depth : Nat) {fuel : Nat}
    (hfuel : later.length ≤ fuel) (ws : List Waiting) :
    let x := chain ctx (operand ctx (depth + 1)) fuel ws first (after ++ rest)
    match Waiting.group ws first later with
    | some e => x = .ok (e, rest)
    | none => RefusesChain ctx (token :: after) x := by
  generalize htokens : token :: after = tokens at h
  induction h generalizing token after ws fuel with
  | last =>
    cases htokens
    cases fuel with
    | zero => rfl
    | succ fuel =>
      cases rest with
      | nil => rfl
      | cons t rest => simp [chain, chainRound, Waiting.group, hrest t rfl]
  | @more _ first mark op tokens next later _ hmark hlater ih =>
    cases htokens
    obtain ⟨u, us, rfl⟩ := List.exists_cons_of_ne_nil hlater.ne_nil
    obtain ⟨fuel, rfl⟩ : ∃ m, fuel = m + 1 :=
      Nat.exists_eq_succ_of_ne_zero (Nat.ne_of_gt (Nat.lt_of_lt_of_le (Nat.succ_pos _) hfuel))
    have hcall' : Uncalled (u :: us) rest := by
      intro t ht
      exact hcall t (by simpa [List.getLast?_cons_cons] using ht)
    simp only [List.cons_append, chain, chainRound, hmark, Waiting.group]
    cases hpush : Waiting.push op ws first with
    | none => exact ⟨mark, by simp, op, hmark, Waiting.never_of_push_eq_none hpush, rfl⟩
    | some ws' =>
      have hnext := ih hcall' (Nat.le_of_succ_le_succ hfuel) ws' rfl
      simp only [operand_of_spells hlater hcall', Option.bind_some, bind, Except.bind]
      cases hgroup : Waiting.group ws' next later with
      | some e => simpa only [hgroup] using hnext
      | none =>
        rw [hgroup] at hnext
        obtain ⟨t, ht, hrefused⟩ := hnext
        exact ⟨t, by simp_all, hrefused⟩

theorem Spells.length_le {token : Token} {after : List Token} {first : Expr}
    {later : List (BinaryOp × Expr)} (h : Spells ctx (token :: after) first later) :
    later.length ≤ after.length := by
  generalize htokens : token :: after = tokens at h
  induction h generalizing token after with
  | last => simp
  | more _ _ hlater ih =>
    cases htokens
    obtain ⟨u, us, rfl⟩ := List.exists_cons_of_ne_nil hlater.ne_nil
    have := ih rfl
    simp only [List.length_cons]
    omega

/-- A chain of single-token operands is read, up to what follows it, as its one conforming tree if
there is one, and is refused at an operator that does not chain if there is none. -/
theorem expression_of_spells {tokens rest : List Token} {first : Expr}
    {later : List (BinaryOp × Expr)} (h : Spells ctx tokens first later) (hrest : Stops rest)
    (hcall : Uncalled tokens rest) (depth : Nat) :
    (∀ t : OperatorTree, t.Conforming → t.reading = (first, later) →
      expression ctx (operand ctx (depth + 1)) (tokens ++ rest) = .ok (t.toExpr, rest) ∧
      ∀ t' : OperatorTree, t'.Conforming → t'.reading = (first, later) → t' = t) ∧
    ((∀ t : OperatorTree, t.reading = (first, later) → ¬ t.Conforming) →
      RefusesChain ctx tokens (expression ctx (operand ctx (depth + 1)) (tokens ++ rest))) := by
  obtain ⟨token, after, rfl⟩ := List.exists_cons_of_ne_nil h.ne_nil
  have hfuel : later.length ≤ (after ++ rest).length := by
    have := h.length_le
    simp only [List.length_append]
    omega
  have hread := chain_of_spells h hrest hcall depth hfuel []
  simp only [List.cons_append, expression, operand_of_spells h hcall, bind, Except.bind]
  refine ⟨fun t ht hreading => ⟨?_, fun t' ht' hreading' => ?_⟩, fun hnone => ?_⟩
  · have hgroup := OperatorTree.group_reading ht
    rw [hreading] at hgroup
    simpa only [hgroup] using hread
  · have hgroup := OperatorTree.group_reading ht
    have hgroup' := OperatorTree.group_reading ht'
    rw [hreading] at hgroup
    rw [hreading', hgroup] at hgroup'
    have hplain {t : OperatorTree} (h' : t.reading = (first, later)) :
        ∀ e ∈ t.operands, e.IsPlain := by
      rw [OperatorTree.operands, h']
      exact h.isPlain
    exact OperatorTree.eq_of_toExpr_eq (hplain hreading') (hplain hreading)
      (Option.some.inj hgroup').symm
  · cases hgroup : Waiting.group [] first later with
    | none => simpa only [hgroup] using hread
    | some e =>
      obtain ⟨t, ht, hreading, -⟩ := OperatorTree.exists_of_group hgroup
      exact absurd ht (hnone t hreading)

/-- `x - y * z - x` groups to the left around the product. `x < y || z < x` has no conforming tree,
and its last operator is refused. -/
theorem expression_of_spells_mixed :
    let ctx : Context := ⟨fun _ => Expr.nowhere, 0, none⟩
    let name (text : String) : Token := ⟨.name, text, 1, 0⟩
    let mark (op : BinaryOp) : Token := ⟨op.kind, op.spelling, 1, 0⟩
    let ident := Expr.ident Expr.nowhere
    let difference := [name "x", mark (.calculate .sub), name "y", mark (.calculate .mul), name "z",
      mark (.calculate .sub), name "x"]
    let comparison := [name "x", mark (.calculate .lt), name "y", mark (.calculate .or), name "z",
      mark (.calculate .lt), name "x"]
    Spells ctx difference (ident "x") [(.calculate .sub, ident "y"), (.calculate .mul, ident "z"),
      (.calculate .sub, ident "x")] ∧
    Spells ctx comparison (ident "x") [(.calculate .lt, ident "y"), (.calculate .or, ident "z"),
      (.calculate .lt, ident "x")] ∧
    Stops [] ∧ Uncalled difference [] ∧ Uncalled comparison [] ∧
    expression ctx (operand ctx 1) difference =
      .ok (.binary Expr.nowhere (.calculate .sub)
        (.binary Expr.nowhere (.calculate .sub) (ident "x")
          (.binary Expr.nowhere (.calculate .mul) (ident "y") (ident "z"))) (ident "x"), []) ∧
    RefusesChain ctx comparison (expression ctx (operand ctx 1) comparison) := by
  intro ctx name mark ident difference comparison
  have spelled : Spells ctx difference (ident "x") [(.calculate .sub, ident "y"),
      (.calculate .mul, ident "z"), (.calculate .sub, ident "x")] :=
    .more rfl rfl (.more rfl rfl (.more rfl rfl (.last rfl)))
  have spelled' : Spells ctx comparison (ident "x") [(.calculate .lt, ident "y"),
      (.calculate .or, ident "z"), (.calculate .lt, ident "x")] :=
    .more rfl rfl (.more rfl rfl (.more rfl rfl (.last rfl)))
  have stops : Stops [] := by
    rintro t ⟨⟩
  have uncalled (tokens : List Token) : Uncalled tokens [] := fun _ _ _ => rfl
  let tree : OperatorTree := .node (.calculate .sub)
    (.node (.calculate .sub) (.operand (ident "x"))
      (.node (.calculate .mul) (.operand (ident "y")) (.operand (ident "z"))))
    (.operand (ident "x"))
  have conforming : tree.Conforming := by
    simp [tree, OperatorTree.Conforming, OperatorTree.root?, BinaryOp.Admits, BinaryOp.power,
      BinaryOp.grouping]
  refine ⟨spelled, spelled', stops, uncalled _, uncalled _, ?_, ?_⟩
  · exact ((expression_of_spells spelled stops (uncalled _) 0).1 tree conforming rfl).1
  · refine (expression_of_spells spelled' stops (uncalled _) 0).2 fun t hreading ht => ?_
    have hgroup := OperatorTree.group_reading ht
    rw [hreading] at hgroup
    cases hgroup

end Parser

end Teal
