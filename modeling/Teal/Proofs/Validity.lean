import Teal.Proofs.Expansion
import Teal.Proofs.FunctionTable

/-!
# Programs that are accepted

The compiler checks expressions while it writes their code, one function after the other, and the
bodies of functions wait until it comes to them. What it refuses in all can be said node by node,
wherever the node stands: only a name can be assigned to, only a call can be started, and an
argument stands in a call. Nothing of a program is left out but what stands in the place of a
keyword, since that is never compiled.

## Main definitions

* `Expr.Compiled`: an expression is compiled with another.
* `Expr.Admitted`: nothing is wrong with a node.
* `Expr.Valid`: nothing is wrong with the nodes that are compiled with an expression.

## Main statements

* `Expr.fault?_eq_none_iff`: what the check of an expression asks of it and of its parts.
* `Function.fault?_eq_none_iff`: what the check of a function asks, at any depth.
* `compile_accepts_iff`: the programs that are accepted.
-/

namespace Teal

namespace Expr

def isArgument : Expr → Bool
  | .argument .. => true
  | _ => false

def isFunction : Expr → Bool
  | .definition .. | .lambda .. => true
  | _ => false

def arguments : Expr → List Expr
  | .call _ _ args => args
  | _ => []

/-- The parts of an expression that are compiled, but for the arguments of a call. The keyword of an
argument is only looked at. -/
def standingParts : Expr → List Expr
  | .call _ callee _ => [callee]
  | .argument _ _ value => [value]
  | e => e.parts

def compiledParts (e : Expr) : List Expr :=
  e.standingParts ++ e.arguments

/-- An expression is compiled with another, at any depth. -/
inductive Compiled : Expr → Expr → Prop
  | self {e} : Compiled e e
  | part {e part whole} : Compiled e part → part ∈ whole.compiledParts → Compiled e whole

/-- Nothing is wrong with a node: it assigns to a name, starts a call, and no argument stands in it
outside of a call. -/
structure Admitted (e : Expr) : Prop where
  assigns {loc : Location} {left right : Expr} : e = .binary loc .assign left right →
    ∃ loc name, left = .ident loc name
  starts {loc : Location} {inner : Expr} : e = .async loc inner →
    ∃ loc callee args, inner = .call loc callee args
  placed : ∀ part ∈ e.standingParts, part.isArgument = false

/-- Nothing is wrong with the nodes that are compiled with an expression. -/
def Valid (e : Expr) : Prop :=
  ∀ node : Expr, node.Compiled e → node.Admitted

/-! ### Parts -/

/-- Induction over expressions by their parts. -/
theorem induct_parts {P : Expr → Prop} (step : ∀ e, (∀ part ∈ e.parts, P part) → P e) (e : Expr) :
    P e := by
  induction e with
  | definition _ _ _ _ _ ih | lambda _ _ _ ih | async _ _ ih | await _ _ ih =>
    exact step _ (by simpa [parts] using ih)
  | call _ _ _ ihCallee ihArgs => exact step _ (List.forall_mem_cons.mpr ⟨ihCallee, ihArgs⟩)
  | argument _ _ _ ihKeyword ih =>
    exact step _ (by simpa [parts, or_imp, forall_and] using ⟨ihKeyword, ih⟩)
  | ident | symbol | literal => exact step _ (by simp [parts])
  | binary _ _ _ _ ihLeft ihRight => exact step _ (by simpa [parts] using ⟨ihLeft, ihRight⟩)
  | conditional _ _ _ _ ihCondition ihConsequence ihAlternative =>
    exact step _ (by simpa [parts] using ⟨ihCondition, ihConsequence, ihAlternative⟩)
  | block _ _ ih => exact step _ ih

theorem compiledParts_subset (e : Expr) : e.compiledParts ⊆ e.parts := by
  cases e <;> simp [compiledParts, standingParts, arguments, parts]

theorem Compiled.trans {node part whole : Expr} (h : node.Compiled part)
    (hpart : part.Compiled whole) : node.Compiled whole := by
  induction hpart with
  | self => exact h
  | part _ hpart ih => exact .part ih hpart

/-- What holds of all that is compiled with an expression holds of itself and of all that is
compiled with its parts. -/
theorem forall_compiled_iff {P : Expr → Prop} {e : Expr} :
    (∀ node : Expr, node.Compiled e → P node) ↔
      P e ∧ ∀ part ∈ e.compiledParts, ∀ node : Expr, node.Compiled part → P node := by
  constructor
  · exact fun h => ⟨h e .self, fun part hpart node hnode => h node (.part hnode hpart)⟩
  · rintro ⟨hself, hparts⟩ node hnode
    cases hnode with
    | self => exact hself
    | part hnode hpart => exact hparts _ hpart node hnode

theorem valid_iff {e : Expr} : e.Valid ↔ e.Admitted ∧ ∀ part ∈ e.compiledParts, part.Valid :=
  forall_compiled_iff

/-- The functions in a part of an expression are in the expression. -/
theorem functionNodes_of_part {e part : Expr} (h : part ∈ e.compiledParts) :
    part.functionNodes ⊆ e.functionNodes := by
  have ofAll {es : List Expr} (h : part ∈ es) : part.functionNodes ⊆ functionNodesOfAll es := by
    induction es with
    | nil => cases h
    | cons first rest ih => grind [functionNodesOfAll]
  cases e with
  | conditional _ _ _ alternative =>
    cases alternative <;>
      grind [compiledParts, standingParts, arguments, parts, functionNodes, functionNodesOfElse]
  | _ => grind [compiledParts, standingParts, arguments, parts, functionNodes]

/-- The functions that an expression makes are in it. -/
theorem outerNodes_subset (e : Expr) : e.outerNodes ⊆ e.functionNodes := by
  have ofAll {es : List Expr} (h : ∀ e ∈ es, e.outerNodes ⊆ e.functionNodes) :
      outerNodesOfAll es ⊆ functionNodesOfAll es := by
    induction es with
    | nil => exact List.Subset.refl _
    | cons first rest ih => grind [outerNodesOfAll, functionNodesOfAll]
  induction e with
  | binary _ op => cases op <;> grind [outerNodes, functionNodes]
  | conditional _ _ _ alternative _ _ ihAlternative =>
    have otherwise : outerNodesOfElse alternative ⊆ functionNodesOfElse alternative := by
      cases alternative with
      | none => exact List.Subset.refl _
      | some e => exact ihAlternative e rfl
    grind [outerNodes, functionNodes]
  | _ => grind [outerNodes, functionNodes]

/-- A function in an expression is the expression or in a part of it. -/
theorem exists_part_of_mem_functionNodes {e : Expr} {n : FunctionNode}
    (h : n ∈ e.functionNodes) : n.expr = e ∨ ∃ part ∈ e.compiledParts, n ∈ part.functionNodes := by
  have ofAll {es : List Expr} (h : n ∈ functionNodesOfAll es) :
      ∃ part ∈ es, n ∈ part.functionNodes := by
    induction es with
    | nil => cases h
    | cons first rest ih => grind [functionNodesOfAll]
  cases e with
  | definition | lambda =>
    rcases List.mem_cons.mp h with rfl | h
    · exact .inl rfl
    · exact .inr ⟨_, List.mem_singleton_self _, h⟩
  | ident | symbol | literal => cases h
  | conditional loc condition consequence alternative =>
    have hparts : (conditional loc condition consequence alternative).compiledParts =
        condition :: consequence :: alternative.toList := List.append_nil _
    rw [hparts, List.exists_mem_cons_iff, List.exists_mem_cons_iff]
    rw [functionNodes, List.mem_append, List.mem_append] at h
    cases alternative <;> grind [functionNodesOfElse]
  | _ => grind [compiledParts, standingParts, arguments, parts, functionNodes]

/-- The functions in an expression are compiled with it. -/
theorem compiled_of_mem_functionNodes {e : Expr} {n : FunctionNode} (h : n ∈ e.functionNodes) :
    n.expr.Compiled e := by
  induction e using induct_parts with
  | step e ih =>
    rcases exists_part_of_mem_functionNodes h with rfl | ⟨part, hpart, hn⟩
    · exact .self
    · exact .part (ih part (e.compiledParts_subset hpart) hn) hpart

theorem compiled_of_mem_outerNodes {e : Expr} {n : FunctionNode} (h : n ∈ e.outerNodes) :
    n.expr.Compiled e :=
  compiled_of_mem_functionNodes (e.outerNodes_subset h)

/-! ### The check of an expression -/

theorem fault?_eq_none_iff_given {e : Expr} :
    e.fault? = none ↔ e.isArgument = false ∧ e.given.fault? = none := by
  cases e <;> simp [isArgument, given, fault?]

theorem argumentFault?_eq_none_iff {args : List Expr} :
    argumentFault? args = none ↔ ∀ a ∈ args, a.given.fault? = none := by
  refine ⟨argumentFault?_eq_none, fun h => ?_⟩
  induction args with
  | nil => rfl
  | cons a rest ih =>
    obtain ⟨ha, hrest⟩ := List.forall_mem_cons.mp h
    cases a <;> simp_all [argumentFault?, given, fault?]

theorem itemFault?_eq_none_iff {items : List Expr} :
    itemFault? items = none ↔ ∀ e ∈ items, e.fault? = none := by
  induction items with
  | nil => simp [itemFault?]
  | cons e rest ih => rw [itemFault?, Option.or_eq_none_iff, ih, List.forall_mem_cons]

def formed : Expr → Bool
  | .binary _ .assign (.ident ..) _ | .async _ (.call ..) => true
  | .binary _ .assign _ _ | .async .. => false
  | _ => true

theorem admitted_iff {e : Expr} :
    e.Admitted ↔ e.formed = true ∧ ∀ part ∈ e.standingParts, part.isArgument = false := by
  refine ⟨fun h => ⟨?_, h.placed⟩, fun ⟨hformed, hplaced⟩ => ⟨?_, ?_, hplaced⟩⟩
  · unfold formed
    split
    · rfl
    · rfl
    · obtain ⟨loc, name, rfl⟩ := h.assigns rfl
      simp_all
    · obtain ⟨loc, callee, args, rfl⟩ := h.starts rfl
      simp_all
    · rfl
  · rintro loc left right rfl
    cases left <;> simp_all [formed]
  · rintro loc inner rfl
    cases inner <;> simp_all [formed]

/-- What the check asks of an expression that is no function and of its parts. -/
theorem given_fault?_eq_none_iff {e : Expr} (h : e.isFunction = false) :
    e.given.fault? = none ↔ e.formed = true ∧ (∀ part ∈ e.standingParts, part.fault? = none) ∧
      ∀ a ∈ e.arguments, a.given.fault? = none := by
  cases e with
  | definition | lambda => cases h
  | ident | symbol | literal => simp [given, fault?, formed, standingParts, arguments, parts]
  | argument => simp [given, formed, standingParts, arguments]
  | binary _ op left _ =>
    cases op with
    | assign => cases left <;> simp [given, fault?, formed, standingParts, arguments, parts]
    | calculate => simp [given, fault?, formed, standingParts, arguments, parts]
  | call =>
    simp [given, fault?, formed, standingParts, arguments, argumentFault?_eq_none_iff, and_comm]
  | async _ inner =>
    cases inner <;> simp [given, fault?, formed, standingParts, arguments, parts]
  | await => simp [given, fault?, formed, standingParts, arguments, parts]
  | conditional _ _ _ alternative =>
    cases alternative <;>
      simp [given, fault?, formed, standingParts, arguments, parts, alternativeFault?, and_comm]
  | block => simp [given, fault?, formed, standingParts, arguments, parts, itemFault?_eq_none_iff]

theorem isFunction_iff {e : Expr} : e.isFunction = true ↔ ∃ n : FunctionNode, n.expr = e := by
  constructor
  · intro h
    cases e with
    | definition loc name params body tag => exact ⟨.definition loc name params body tag, rfl⟩
    | lambda loc params body => exact ⟨.lambda loc params body, rfl⟩
    | _ => cases h
  · rintro ⟨n, rfl⟩
    cases n <;> rfl

theorem valid_expr {n : FunctionNode} : n.expr.Valid ↔
    n.function.body.isArgument = false ∧ n.function.body.Valid := by
  rw [valid_iff, admitted_iff]
  cases n <;> simp [FunctionNode.expr, FunctionNode.function, formed, compiledParts, standingParts,
    arguments, parts]

theorem compiledParts_expr (n : FunctionNode) : n.expr.compiledParts = [n.function.body] := by
  cases n <;> rfl

theorem given_fault?_expr (n : FunctionNode) : n.expr.given.fault? = none := by
  cases n <;> rfl

/-- The check of an expression and those of the functions in it miss no node. -/
theorem valid_of_fault? {e : Expr} (h : e.given.fault? = none)
    (hfunctions : ∀ n ∈ e.functionNodes, n.function.body.fault? = none) : e.Valid := by
  induction e using induct_parts with
  | step e ih =>
    have inner {part : Expr} (hpart : part ∈ e.compiledParts)
        (hfault : part.given.fault? = none) : part.Valid :=
      ih part (e.compiledParts_subset hpart) hfault fun n hn =>
        hfunctions n (functionNodes_of_part hpart hn)
    cases hkind : e.isFunction with
    | true =>
      obtain ⟨n, rfl⟩ := isFunction_iff.mp hkind
      obtain ⟨hargument, hgiven⟩ := fault?_eq_none_iff_given.mp
        (hfunctions n (by rw [functionNodes_expr]; exact List.mem_cons_self))
      refine valid_expr.mpr ⟨hargument, inner ?_ hgiven⟩
      rw [compiledParts_expr]
      exact List.mem_singleton_self _
    | false =>
      obtain ⟨hformed, hstanding, harguments⟩ := (given_fault?_eq_none_iff hkind).mp h
      have hplaced : ∀ part ∈ e.standingParts, part.isArgument = false := fun part hpart =>
        (fault?_eq_none_iff_given.mp (hstanding part hpart)).1
      refine valid_iff.mpr ⟨admitted_iff.mpr ⟨hformed, hplaced⟩, fun part hpart => inner hpart ?_⟩
      rcases List.mem_append.mp hpart with hpart | hpart
      · exact fault?_given (hstanding part hpart)
      · exact harguments part hpart

/-- The check finds nothing wrong with an expression if there is nothing. -/
theorem Valid.given_fault? {e : Expr} (h : e.Valid) : e.given.fault? = none := by
  induction e using induct_parts with
  | step e ih =>
    obtain ⟨hadmitted, hparts⟩ := valid_iff.mp h
    have inner {part : Expr} (hpart : part ∈ e.compiledParts) : part.given.fault? = none :=
      ih part (e.compiledParts_subset hpart) (hparts part hpart)
    cases hkind : e.isFunction with
    | true =>
      obtain ⟨n, rfl⟩ := isFunction_iff.mp hkind
      exact given_fault?_expr n
    | false =>
      obtain ⟨hformed, hplaced⟩ := admitted_iff.mp hadmitted
      refine (given_fault?_eq_none_iff hkind).mpr ⟨hformed, fun part hpart => ?_, fun a ha => ?_⟩
      · exact fault?_eq_none_iff_given.mpr
          ⟨hplaced part hpart, inner (List.mem_append_left _ hpart)⟩
      · exact inner (List.mem_append_right _ ha)

theorem Valid.compiled {e part : Expr} (h : e.Valid) (hpart : part.Compiled e) : part.Valid :=
  fun node hnode => h node (hnode.trans hpart)

end Expr

/-! ### The check of a function -/

namespace Function

variable {f : Function}

/-- The check of a function goes through the functions inside of it. -/
theorem fault?_of_mem_functionNodes (h : f.fault? = none) :
    f.body.fault? = none ∧ ∀ n ∈ f.body.functionNodes, n.function.body.fault? = none := by
  have hregions : ∀ r ∈ f.regions 0, r.function.body.fault? = none :=
    List.findSome?_eq_none_iff.mp h
  have hfunctions : (f.regions 0).map Region.function = [f] ++ Region.made (f.regions 0) :=
    Region.family_functions 0 (by simp [Function.weight])
  have hbody {g : Function} (hg : g ∈ [f] ++ Region.made (f.regions 0)) :
      g.body.fault? = none := by
    rw [← hfunctions] at hg
    obtain ⟨r, hr, rfl⟩ := List.mem_map.mp hg
    exact hregions r hr
  have hnodes : ((f.regions 0).flatMap fun r => r.function.body.outerNodes).Perm
      f.body.functionNodes := by
    simpa [Function.regions] using Region.perm_family 0 (by simp [Function.weight]) hregions
  refine ⟨hbody (by simp), fun n hn => ?_⟩
  obtain ⟨r, hr, hn⟩ := List.mem_flatMap.mp (hnodes.mem_iff.mpr hn)
  have hmem : n.function.body ∈ (r.function.nested r.next).map Function.body := by
    rw [nested_bodies, ← Expr.map_outerNodes, List.map_map]
    exact List.mem_map_of_mem hn
  obtain ⟨g, hg, hgbody⟩ := List.mem_map.mp hmem
  rw [← hgbody]
  exact hbody (List.mem_append_right _ (List.mem_flatMap.mpr ⟨r, hr, hg⟩))

/-- The check of a function finds nothing wrong if its body is no argument and nothing is wrong with
the nodes of the body, inside other functions or not. -/
theorem fault?_eq_none_iff : f.fault? = none ↔ f.body.isArgument = false ∧ f.body.Valid := by
  constructor
  · intro h
    obtain ⟨hbody, hnodes⟩ := fault?_of_mem_functionNodes h
    obtain ⟨hargument, hgiven⟩ := Expr.fault?_eq_none_iff_given.mp hbody
    exact ⟨hargument, Expr.valid_of_fault? hgiven hnodes⟩
  · intro h
    refine List.findSome?_eq_none_iff.mpr fun r hr => ?_
    have hvalid : r.function.body.isArgument = false ∧ r.function.body.Valid := by
      refine Region.bodies_family (P := fun e => e.isArgument = false ∧ e.Valid) ?_
        (by simpa using h) r hr
      -- a function inside a body is a node that is compiled with it
      rintro e ⟨-, hvalid⟩ g hg
      rw [← Expr.map_outerNodes] at hg
      obtain ⟨n, hn, rfl⟩ := List.mem_map.mp hg
      exact Expr.valid_expr.mp (hvalid.compiled (Expr.compiled_of_mem_outerNodes hn))
    exact Expr.fault?_eq_none_iff_given.mpr ⟨hvalid.1, hvalid.2.given_fault?⟩

end Function

/-! ### The check of a program -/

/-- The check of a definition at the top level. -/
theorem Function.fault?_iff_valid {e : Expr} {f : Function} (h : e.function? = some f) :
    f.fault? = none ↔ e.Valid := by
  cases e with
  | definition loc name params body tag =>
    obtain rfl := Option.some.inj h
    rw [fault?_eq_none_iff]
    exact (Expr.valid_expr (n := .definition loc name params body tag)).symm
  | _ => cases h

/-- The check of a program finds nothing wrong if it consists of definitions with names that are
different and new, and nothing is wrong with its nodes. -/
theorem programError?_eq_none_iff {seen : List String} {program : List Expr} :
    programError? seen program = none ↔
      (∀ e ∈ program, e.function?.isSome = true) ∧
      ((program.filterMap Expr.function?).map Function.name).Nodup ∧
      (∀ f ∈ program.filterMap Expr.function?, f.name ∉ seen) ∧
      ∀ e ∈ program, e.Valid := by
  induction program generalizing seen with
  | nil => simp [programError?]
  | cons e rest ih =>
    cases hf : e.function? with
    | none => simp [programError?, hf]
    | some f =>
      rw [List.filterMap_cons_some hf, List.map_cons, List.nodup_cons, List.forall_mem_cons,
        List.forall_mem_cons, List.forall_mem_cons, hf, ← Function.fault?_iff_valid hf]
      simp only [programError?, hf]
      split
      · next hseen => simp_all
      · next hseen =>
        rw [Option.or_eq_none_iff, ih]
        -- a name is new to the rest if it is new and not that of the first definition
        have hnew : (∀ g ∈ rest.filterMap Expr.function?, g.name ∉ f.name :: seen) ↔
            f.name ∉ (rest.filterMap Expr.function?).map Function.name ∧
              ∀ g ∈ rest.filterMap Expr.function?, g.name ∉ seen := by
          grind
        rw [hnew]
        simp_all
        tauto

theorem compile_eq_ok_iff {program : List Expr} :
    (∃ exe, compile program = .ok exe) ↔ programError? [] program = none := by
  unfold compile
  cases programError? [] program <;> simp

/-- A program is accepted if it consists of definitions with different names and in it, at any
depth, only names are assigned to, only calls are started, and arguments stand only in calls. No
instruction that may be written for a program, accepted or not, is refused for its operands, with
the jumps as they are first and with any that are put in their place. -/
theorem compile_accepts_iff (program : List Expr) :
    ((∃ exe, compile program = .ok exe) ↔
      (∀ e ∈ program, ∃ loc name params body tag,
        e = .definition loc name params body tag) ∧
      ((program.filterMap Expr.function?).map Function.name).Nodup ∧
      ∀ e ∈ program, ∀ node : Expr, node.Compiled e → node.Admitted) ∧
    ∀ r ∈ numberedFunctions program, ∀ i ∈ r.code,
      Op.Accepts i.op.opcode i.op.operands ∧
      ∀ offset, Op.Accepts (i.op.withJump offset).opcode (i.op.withJump offset).operands := by
  refine ⟨?_, fun r _ i _ => ⟨i.op.accepts_operands, fun _ => Op.accepts_operands _⟩⟩
  have hdefinition {e : Expr} : e.function?.isSome = true ↔ ∃ loc name params body tag,
      e = .definition loc name params body tag := by
    cases e <;> simp [Expr.function?]
  rw [compile_eq_ok_iff, programError?_eq_none_iff]
  simp [hdefinition, Expr.Valid]

end Teal
