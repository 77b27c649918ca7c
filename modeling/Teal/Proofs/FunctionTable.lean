import Mathlib.Data.List.Flatten
import Teal.Proofs.Heights
import Teal.Proofs.Shapes

/-!
# The function table of a program

The compiler gives every function of a program code of its own, in the order in which it meets the
functions: those inside a function come after it, and are numbered where their closures are made.
So the code of a program is that of units, one for each definition and each lambda in it, at any
depth. A unit has one entry in the table, which says where its code begins; the code ends in its
only return, its jumps stay inside, and what makes a closure has the name of the unit of the
function that it stands for.

## Main definitions

* `FunctionNode`: a definition or a lambda.
* `Expr.functionNodes`, `Expr.outerNodes`: the functions in an expression, with and without those
  inside other functions.
* `CodeUnit`: a function of a program with its number.
* `Executable.Linked`: a program is linked from units.

## Main statements

* `Expr.functionNodes_eq`: the functions in an expression are those that it makes, and those inside
  of them.
* `Expr.links_code`: the code of an expression makes its functions in order.
* `Region.perm_family`: regions make all functions inside those that were given.
* `linked_of_compile`: every program that is accepted is linked from units.
-/

namespace Teal

/-! ## Function nodes -/

inductive FunctionNode
  | definition (loc : Location) (name : String) (params : List String) (body : Expr)
      (tag : Option String)
  | lambda (loc : Location) (params : List String) (body : Expr)

namespace FunctionNode

def expr : FunctionNode → Expr
  | .definition loc name params body tag => .definition loc name params body tag
  | .lambda loc params body => .lambda loc params body

def function : FunctionNode → Function
  | .definition _ name params body tag => ⟨name, params, body, tag, some name⟩
  | .lambda _ params body => ⟨"lambda", params, body, none, none⟩

/-- The function to be compiled for the node: with its number, or without one at the top level. -/
def compiled (n : FunctionNode) : Option Nat → Function
  | none => { n.function with itself := none }
  | some k => n.function.numbered k

@[simp] theorem compiled_body (n : FunctionNode) (number : Option Nat) :
    (n.compiled number).body = n.function.body := by
  cases number <;> rfl

@[simp] theorem compiled_params (n : FunctionNode) (number : Option Nat) :
    (n.compiled number).params = n.function.params := by
  cases number <;> rfl

@[simp] theorem compiled_tag (n : FunctionNode) (number : Option Nat) :
    (n.compiled number).tag = n.function.tag := by
  cases number <;> rfl

def closure (n : FunctionNode) (k : Nat) : Instruction :=
  n.expr.emit (.makeClosure (Expr.closureName n.function.name k))

end FunctionNode

namespace Expr

mutual

/-- The functions in an expression, at any depth. Of an argument only the value is looked at. -/
def functionNodes : Expr → List FunctionNode
  | .definition loc name params body tag =>
    .definition loc name params body tag :: functionNodes body
  | .lambda loc params body => .lambda loc params body :: functionNodes body
  | .ident .. | .symbol .. | .literal .. => []
  | .argument _ _ value => functionNodes value
  | .binary _ _ left right => functionNodes left ++ functionNodes right
  | .call _ callee args => functionNodesOfAll args ++ functionNodes callee
  | .async _ inner => functionNodes inner
  | .await _ inner => functionNodes inner
  | .conditional _ condition consequence alternative =>
    functionNodes condition ++ functionNodesOfElse alternative ++ functionNodes consequence
  | .block _ items => functionNodesOfAll items

def functionNodesOfAll : List Expr → List FunctionNode
  | [] => []
  | e :: rest => functionNodes e ++ functionNodesOfAll rest

def functionNodesOfElse : Option Expr → List FunctionNode
  | none => []
  | some e => functionNodes e

end

mutual

/-- The functions in an expression, except those inside other functions. -/
def outerNodes : Expr → List FunctionNode
  | .definition loc name params body tag => [.definition loc name params body tag]
  | .lambda loc params body => [.lambda loc params body]
  | .ident .. | .symbol .. | .literal .. => []
  | .argument _ _ value => outerNodes value
  | .binary _ .assign _ right => outerNodes right
  | .binary _ (.calculate _) left right => outerNodes left ++ outerNodes right
  | .call _ callee args => outerNodesOfAll args ++ outerNodes callee
  | .async _ inner => outerNodes inner
  | .await _ inner => outerNodes inner
  | .conditional _ condition consequence alternative =>
    outerNodes condition ++ outerNodesOfElse alternative ++ outerNodes consequence
  | .block _ items => outerNodesOfAll items

def outerNodesOfAll : List Expr → List FunctionNode
  | [] => []
  | e :: rest => outerNodes e ++ outerNodesOfAll rest

def outerNodesOfElse : Option Expr → List FunctionNode
  | none => []
  | some e => outerNodes e

end

/-! ### The functions that an expression makes -/

theorem map_outerNodesOfAll {es : List Expr}
    (ih : ∀ e ∈ es, e.outerNodes.map FunctionNode.function = e.functions) :
    (outerNodesOfAll es).map FunctionNode.function = functionsOfAll es := by
  induction es with
  | nil => rfl
  | cons e rest ihRest =>
    rw [List.forall_mem_cons] at ih
    rw [outerNodesOfAll, functionsOfAll, List.map_append, ih.1, ihRest ih.2]

/-- The functions that an expression makes are those of its nodes. -/
theorem map_outerNodes (e : Expr) : e.outerNodes.map FunctionNode.function = e.functions := by
  induction e with
  | definition | lambda | ident | symbol | literal => rfl
  | argument _ _ _ _ ih | async _ _ ih | await _ _ ih => exact ih
  | binary _ op _ _ ihLeft ihRight =>
    cases op with
    | assign => exact ihRight
    | calculate => rw [outerNodes, functions, List.map_append, ihLeft, ihRight]
  | call _ _ _ ihCallee ihArgs =>
    rw [outerNodes, functions, List.map_append, ihCallee, map_outerNodesOfAll ihArgs]
  | conditional _ _ _ alternative ihCondition ihConsequence ihAlternative =>
    have hother : (outerNodesOfElse alternative).map FunctionNode.function =
        functionsOfElse alternative := by
      cases alternative with
      | none => rfl
      | some e => exact ihAlternative e rfl
    rw [outerNodes, functions, List.map_append, List.map_append, ihCondition, hother, ihConsequence]
  | block _ _ ih => exact map_outerNodesOfAll ih

theorem length_outerNodes (e : Expr) : e.outerNodes.length = e.functions.length := by
  rw [← map_outerNodes, List.length_map]

/-! ### The functions inside of functions -/

def deepened (nodes : List FunctionNode) : List FunctionNode :=
  nodes.flatMap fun n => n :: n.function.body.functionNodes

theorem deepened_append (a b : List FunctionNode) :
    deepened (a ++ b) = deepened a ++ deepened b :=
  List.flatMap_append

theorem functionNodesOfAll_eq {es : List Expr}
    (ih : ∀ e ∈ es, e.functionNodes = deepened e.outerNodes) :
    functionNodesOfAll es = deepened (outerNodesOfAll es) := by
  induction es with
  | nil => rfl
  | cons e rest ihRest =>
    rw [List.forall_mem_cons] at ih
    rw [functionNodesOfAll, outerNodesOfAll, ih.1, ihRest ih.2, deepened_append]

theorem fault?_given {e : Expr} (h : e.fault? = none) : e.given.fault? = none := by
  cases e <;> first | exact h | cases h

theorem argumentFault?_eq_none {args : List Expr} (h : argumentFault? args = none) :
    ∀ a ∈ args, a.given.fault? = none := by
  induction args with
  | nil => simp
  | cons a rest ih =>
    have hcons : argumentFault? (a :: rest) = a.given.fault?.or (argumentFault? rest) := by
      cases a <;> rfl
    rw [hcons, Option.or_eq_none_iff] at h
    exact List.forall_mem_cons.mpr ⟨h.1, ih h.2⟩

theorem itemFault?_eq_none {items : List Expr} (h : itemFault? items = none) :
    ∀ e ∈ items, e.fault? = none := by
  induction items with
  | nil => simp
  | cons e rest ih =>
    rw [itemFault?, Option.or_eq_none_iff] at h
    exact List.forall_mem_cons.mpr ⟨h.1, ih h.2⟩

/-- Unless something is wrong with an expression, the functions in it are those that it makes, and
those inside of them. -/
theorem functionNodes_eq {e : Expr} (h : e.given.fault? = none) :
    e.functionNodes = deepened e.outerNodes := by
  induction e with
  | definition | lambda =>
    simp [functionNodes, outerNodes, deepened, FunctionNode.function]
  | ident | symbol | literal => rfl
  | argument _ _ _ _ ih => exact ih (fault?_given h)
  | await _ _ ih => exact ih (fault?_given h)
  | async _ inner ih =>
    cases inner with
    | call => exact ih h
    | _ => cases h
  | binary _ op left right ihLeft ihRight =>
    cases op with
    | assign =>
      -- only a name can be assigned to, and there is no function in it
      cases left with
      | ident => exact ihRight (fault?_given h)
      | _ => cases h
    | calculate op =>
      obtain ⟨hleft, hright⟩ := Option.or_eq_none_iff.mp h
      rw [functionNodes, outerNodes, deepened_append, ihLeft (fault?_given hleft),
        ihRight (fault?_given hright)]
  | call _ callee args ihCallee ihArgs =>
    obtain ⟨hargs, hcallee⟩ := Option.or_eq_none_iff.mp h
    have hnodes := functionNodesOfAll_eq fun a ha => ihArgs a ha (argumentFault?_eq_none hargs a ha)
    rw [functionNodes, outerNodes, deepened_append, hnodes, ihCallee (fault?_given hcallee)]
  | conditional _ condition consequence alternative ihCondition ihConsequence ihAlternative =>
    obtain ⟨hcondition, hothers⟩ := Option.or_eq_none_iff.mp h
    obtain ⟨halternative, hconsequence⟩ := Option.or_eq_none_iff.mp hothers
    have hother : functionNodesOfElse alternative = deepened (outerNodesOfElse alternative) := by
      cases alternative with
      | none => rfl
      | some e => exact ihAlternative e rfl (fault?_given halternative)
    rw [functionNodes, outerNodes, deepened_append, deepened_append, hother,
      ihCondition (fault?_given hcondition), ihConsequence (fault?_given hconsequence)]
  | block _ items ih =>
    exact functionNodesOfAll_eq fun e he => ih e he (fault?_given (itemFault?_eq_none h e he))

theorem functionNodes_expr (n : FunctionNode) :
    n.expr.functionNodes = n :: n.function.body.functionNodes := by
  cases n <;> rfl

end Expr

/-! ## Closures in code -/

def Op.links : Op → Bool
  | .makeClosure _ | .ret => true
  | _ => false

namespace Expr

def closures (nodes : List FunctionNode) (next : Nat) : List Instruction :=
  (nodes.zipIdx next).map fun p => p.1.closure p.2

theorem closures_append (a b : List FunctionNode) (next : Nat) :
    closures (a ++ b) next = closures a next ++ closures b (next + a.length) := by
  rw [closures, List.zipIdx_append, List.map_append]
  rfl

def links (code : List Instruction) : List Instruction :=
  code.filter fun i => i.op.links

theorem links_append (a b : List Instruction) : links (a ++ b) = links a ++ links b :=
  List.filter_append ..

theorem links_emit {e : Expr} {op : Op} (h : op.links = false) : links [e.emit op] = [] := by
  simp [links, emit, h]

theorem length_outerNodesOfAll (es : List Expr) :
    (outerNodesOfAll es).length = (functionsOfAll es).length := by
  rw [← map_outerNodesOfAll fun e _ => e.map_outerNodes, List.length_map]

theorem links_codeOfAll {args : List Expr}
    (ih : ∀ a ∈ args, ∀ next, links (a.code next) = closures a.outerNodes next) (next : Nat) :
    links (codeOfAll next args) = closures (outerNodesOfAll args) next := by
  induction args generalizing next with
  | nil => rfl
  | cons a rest ihRest =>
    rw [List.forall_mem_cons] at ih
    rw [codeOfAll, outerNodesOfAll, links_append, closures_append, ih.1, ihRest ih.2,
      length_outerNodes]

theorem links_codeOfRest {items : List Expr}
    (ih : ∀ e ∈ items, ∀ next, links (e.code next) = closures e.outerNodes next) (next : Nat) :
    links (codeOfRest next items) = closures (outerNodesOfAll items) next := by
  induction items generalizing next with
  | nil => rfl
  | cons e rest ihRest =>
    rw [List.forall_mem_cons] at ih
    rw [codeOfRest, outerNodesOfAll, links_append, links_append, closures_append, ih.1,
      ihRest ih.2, length_outerNodes, links_emit rfl, List.nil_append]

theorem links_calling {args : List Expr} {callee : Expr}
    (ihArgs : ∀ a ∈ args, ∀ next, links (a.code next) = closures a.outerNodes next)
    (ihCallee : ∀ next, links (callee.code next) = closures callee.outerNodes next) (next : Nat) :
    links (codeOfAll next args ++ callee.code (next + (functionsOfAll args).length)) =
      closures (outerNodesOfAll args ++ callee.outerNodes) next := by
  rw [links_append, closures_append, links_codeOfAll ihArgs, ihCallee, length_outerNodesOfAll]

/-- Of the instructions that make a function or leave one, the code of an expression has those that
make its functions, in order. -/
theorem links_code (e : Expr) (next : Nat) : links (e.code next) = closures e.outerNodes next := by
  induction e generalizing next with
  | literal | symbol | ident => rfl
  | lambda | definition => rfl
  | argument _ _ _ _ ih => exact ih next
  | binary _ op left right ihLeft ihRight =>
    cases op with
    | assign =>
      simp only [code]
      rw [outerNodes, links_append, ihRight, links_emit rfl, List.append_nil]
    | calculate op =>
      rw [code, outerNodes, links_append, links_append, closures_append, ihLeft, ihRight,
        length_outerNodes, links_emit rfl, List.append_nil]
  | call _ callee args ihCallee ihArgs =>
    rw [code, outerNodes, links_append, links_calling ihArgs ihCallee, links_emit rfl,
      List.append_nil]
  | async _ inner ih =>
    cases inner with
    | call _ callee args =>
      have hcall := ih next
      rw [code, links_append, links_emit rfl, List.append_nil] at hcall
      rw [code, outerNodes, links_append, links_emit rfl, List.append_nil]
      exact hcall
    | _ => exact ih next
  | await _ _ ih => rw [code, outerNodes, links_append, ih, links_emit rfl, List.append_nil]
  | conditional _ condition consequence alternative ihCondition ihConsequence ihAlternative =>
    have hother (next : Nat) (self : Expr) :
        links (codeOfElse next (self.emit (.pushValue .null)) alternative) =
          closures (outerNodesOfElse alternative) next := by
      cases alternative with
      | none => rfl
      | some e => exact ihAlternative e rfl next
    have hlength : (outerNodesOfElse alternative).length =
        (functionsOfElse alternative).length := by
      cases alternative with
      | none => rfl
      | some e => exact e.length_outerNodes
    have hjump (self : Expr) (n : Int) : links [self.emit (.jump n)] = [] := links_emit rfl
    have hjumpIf (self : Expr) (n : Int) : links [self.emit (.jumpIf n)] = [] := links_emit rfl
    simp only [code, outerNodes, links_append, closures_append, ihCondition, hother, ihConsequence,
      hjump, hjumpIf, List.length_append, length_outerNodes, hlength, List.append_nil,
      Nat.add_assoc]
  | block _ items ih =>
    cases items with
    | nil => rfl
    | cons first rest =>
      rw [List.forall_mem_cons] at ih
      rw [code, outerNodes, outerNodesOfAll, links_append, closures_append, ih.1,
        links_codeOfRest ih.2, length_outerNodes]

end Expr

/-! ## Regions -/

namespace Function

theorem flatMap_nested (f : Function) (next : Nat) :
    (f.nested next).flatMap (fun g => g.body.functionNodes) =
      f.body.outerNodes.flatMap fun n => n.function.body.functionNodes := by
  have hbodies := congrArg (List.flatMap Expr.functionNodes) (f.nested_bodies next)
  rw [← Expr.map_outerNodes] at hbodies
  simpa [List.flatMap_map] using hbodies

/-- What a function makes, by the nodes. -/
theorem nested_eq (f : Function) (next : Nat) :
    f.nested next = (f.body.outerNodes.zipIdx next).map fun p => p.1.compiled (some p.2) := by
  rw [nested, ← Expr.map_outerNodes, List.zipIdx_map, List.map_map]
  rfl

/-- A nested definition makes itself before anything else. -/
theorem exists_code (f : Function) (next : Nat) : ∃ first,
    f.code next = first ++ f.body.code next ++ [f.body.emit .ret] ∧
      Expr.links first = f.itself.toList.map fun _ => f.body.emit (.makeClosure f.name) := by
  obtain ⟨name, params, body, tag, _ | itself⟩ := f <;> exact ⟨_, rfl, rfl⟩

theorem nested_bodies_congr {f g : Function} (h : f.body = g.body) (next next' : Nat) :
    (f.nested next).map body = (g.nested next').map body := by
  rw [nested_bodies, nested_bodies, h]

end Function

namespace Region

/-- The bodies of regions do not depend on how functions are numbered. -/
theorem bodies_family_congr (fuel next next' : Nat) {fs gs : List Function}
    (h : fs.map Function.body = gs.map Function.body) :
    (family fuel next fs).map (fun r => r.function.body) =
      (family fuel next' gs).map fun r => r.function.body := by
  induction fuel generalizing next next' fs gs with
  | zero => rfl
  | succ fuel ih =>
    cases fs with
    | nil =>
      obtain rfl := List.map_eq_nil_iff.mp h.symm
      rfl
    | cons f fs =>
      cases gs with
      | nil => cases h
      | cons g gs =>
        obtain ⟨hbody, hrest⟩ := List.cons.inj h
        have hwaiting : (fs ++ f.nested next).map Function.body =
            (gs ++ g.nested next').map Function.body := by
          rw [List.map_append, List.map_append, hrest, Function.nested_bodies_congr hbody]
        simpa [family, hbody] using ih _ _ hwaiting

def madeNodes (regions : List Region) : List (FunctionNode × Nat) :=
  regions.flatMap fun r => r.function.body.outerNodes.zipIdx r.next

theorem made_eq_madeNodes (regions : List Region) :
    made regions = (madeNodes regions).map fun p => p.1.compiled (some p.2) := by
  simp only [made, madeNodes, List.map_flatMap, Function.nested_eq]

/-- They are numbered through all regions. -/
theorem madeNodes_eq {regions : List Region} {next : Nat} (h : Consecutive next regions) :
    madeNodes regions = (regions.flatMap fun r => r.function.body.outerNodes).zipIdx next := by
  induction regions generalizing next with
  | nil => rfl
  | cons r rest ih =>
    obtain ⟨rfl, h⟩ := h
    have hmade : madeNodes (r :: rest) =
        r.function.body.outerNodes.zipIdx r.next ++ madeNodes rest := rfl
    rw [hmade, ih h, List.flatMap_cons, List.zipIdx_append, Expr.length_outerNodes]
    rfl

/-- With enough fuel, the regions make all functions inside those that waited. -/
theorem perm_family {fuel : Nat} (next : Nat) {waiting : List Function}
    (h : (waiting.map Function.weight).sum ≤ fuel)
    (hfault : ∀ r ∈ family fuel next waiting, r.function.body.fault? = none) :
    ((family fuel next waiting).flatMap fun r => r.function.body.outerNodes).Perm
      (waiting.flatMap fun f => f.body.functionNodes) := by
  induction fuel generalizing next waiting with
  | zero =>
    cases waiting with
    | nil => exact .nil
    | cons f waiting => simp [Function.weight] at h
  | succ fuel ih =>
    cases waiting with
    | nil => exact .nil
    | cons f waiting =>
      have hnested := f.weight_nested next
      have hrest : ((waiting ++ f.nested next).map Function.weight).sum ≤ fuel := by
        have hweight : f.weight = f.body.functionCount + 1 := rfl
        simp only [List.map_cons, List.sum_cons] at h
        simp only [List.map_append, List.sum_append]
        omega
      rw [family, List.forall_mem_cons] at hfault
      have hbody : f.body.functionNodes = Expr.deepened f.body.outerNodes :=
        Expr.functionNodes_eq (Expr.fault?_given hfault.1)
      have hdeep : (f.body.outerNodes ++ (f.nested next).flatMap fun g => g.body.functionNodes).Perm
          f.body.functionNodes := by
        rw [hbody, Function.flatMap_nested]
        simpa [Expr.deepened] using List.map_append_flatMap_perm f.body.outerNodes id
          fun n => n.function.body.functionNodes
      have hothers := ih _ hrest hfault.2
      rw [List.flatMap_append] at hothers
      rw [family, List.flatMap_cons, List.flatMap_cons]
      refine (hothers.append_left _).trans ((List.perm_append_comm.append_left _).trans ?_)
      rw [← List.append_assoc]
      exact hdeep.append_right _

end Region

theorem perm_regionsFrom (next : Nat) {functions : List Function}
    (hfault : ∀ r ∈ regionsFrom next functions, r.function.body.fault? = none) :
    ((regionsFrom next functions).flatMap fun r => r.function.body.outerNodes).Perm
      (functions.flatMap fun f => f.body.functionNodes) := by
  induction functions generalizing next with
  | nil => exact .nil
  | cons f rest ih =>
    rw [regionsFrom, List.forall_mem_append] at hfault
    rw [regionsFrom, List.flatMap_append, List.flatMap_cons]
    refine .append ?_ (ih _ hfault.2)
    simpa [Function.regions] using Region.perm_family next (by simp [Function.weight]) hfault.1

theorem fault?_regionsFrom {functions : List Function} (h : ∀ f ∈ functions, f.fault? = none)
    (next : Nat) : ∀ r ∈ regionsFrom next functions, r.function.body.fault? = none := by
  induction functions generalizing next with
  | nil => simp [regionsFrom]
  | cons f rest ih =>
    rw [List.forall_mem_cons] at h
    rw [regionsFrom, List.forall_mem_append]
    refine ⟨fun r hr => ?_, ih h.2 _⟩
    have hbodies : (f.regions next).map (fun r => r.function.body) =
        (f.regions 0).map fun r => r.function.body := Region.bodies_family_congr _ next 0 rfl
    have hmem : r.function.body ∈ (f.regions 0).map fun r => r.function.body := by
      rw [← hbodies]
      exact List.mem_map_of_mem hr
    obtain ⟨r', hr', hbody⟩ := List.mem_map.mp hmem
    rw [← hbody]
    exact List.findSome?_eq_none_iff.mp h.1 r' hr'

/-- A program that is accepted consists of definitions in which nothing is wrong. -/
theorem exists_nodes_of_programError? {seen : List String} {program : List Expr}
    (h : programError? seen program = none) : ∃ nodes : List FunctionNode,
      nodes.map FunctionNode.expr = program ∧
      program.filterMap Expr.function? = nodes.map (fun n => n.compiled none) ∧
      ∀ n ∈ nodes, (n.compiled none).fault? = none := by
  induction program generalizing seen with
  | nil => exact ⟨[], rfl, rfl, by simp⟩
  | cons e rest ih =>
    cases e with
    | definition loc name params body tag =>
      simp only [programError?, Expr.function?] at h
      split at h
      · cases h
      · obtain ⟨hfault, hrest⟩ := Option.or_eq_none_iff.mp h
        obtain ⟨nodes, hnodes, hfunctions, hfaults⟩ := ih hrest
        refine ⟨.definition loc name params body tag :: nodes, ?_, ?_, ?_⟩
        · rw [List.map_cons, hnodes]
          rfl
        · exact congrArg (_ :: ·) hfunctions
        · exact List.forall_mem_cons.mpr ⟨hfault, hfaults⟩
    | _ => cases h

/-! ## Units of code -/

def Op.makesClosure : Op → Bool
  | .makeClosure _ => true
  | _ => false

/-- A function of a program with its number, if it is inside another one, and the number of the
first closure that its code makes. -/
structure CodeUnit where
  node : FunctionNode
  number : Option Nat
  next : Nat

namespace CodeUnit

def region (u : CodeUnit) : Region :=
  ⟨u.node.compiled u.number, u.next⟩

/-- The name under which the function is known: its own at the top level, and with its number
inside another function. -/
def name (u : CodeUnit) : String :=
  match u.number with
  | none => u.node.function.name
  | some k => Expr.closureName u.node.function.name k

@[simp] theorem region_name (u : CodeUnit) : u.region.function.name = u.name := by
  obtain ⟨node, number, next⟩ := u
  cases number <;> rfl

def code (u : CodeUnit) : List Instruction :=
  u.region.code

def made (u : CodeUnit) : List (FunctionNode × Nat) :=
  u.node.function.body.outerNodes.zipIdx u.next

def own (u : CodeUnit) : List Instruction :=
  u.region.function.itself.toList.map fun _ => u.node.function.body.emit (.makeClosure u.name)

def label (u : CodeUnit) : FunctionNode × Option Nat :=
  (u.node, u.number)

theorem name_of_number {u : CodeUnit} {k : Nat} (h : u.number = some k) :
    u.name = Expr.closureName u.node.function.name k := by
  rw [name, h]

theorem code_eq (u : CodeUnit) : ∃ init,
    u.code = init ++ [u.node.function.body.emit .ret] ∧
      Expr.links init = u.own ++ u.made.map fun c => c.1.closure c.2 := by
  have hbody : u.region.function.body = u.node.function.body := FunctionNode.compiled_body _ _
  obtain ⟨first, hcode, hfirst⟩ := u.region.function.exists_code u.next
  rw [hbody, region_name] at hfirst
  rw [hbody] at hcode
  refine ⟨first ++ u.node.function.body.code u.next, hcode, ?_⟩
  rw [Expr.links_append, hfirst, Expr.links_code]
  rfl

theorem makesClosure_of_mem {u : CodeUnit} {i : Instruction}
    (h : i ∈ u.own ++ u.made.map fun c => c.1.closure c.2) : i.op.makesClosure = true := by
  rcases List.mem_append.mp h with h | h
  · obtain ⟨_, -, rfl⟩ := List.mem_map.mp h
    rfl
  · obtain ⟨_, -, rfl⟩ := List.mem_map.mp h
    rfl

theorem exists_ret (u : CodeUnit) : ∃ init, u.code = init ++ [u.node.function.body.emit .ret] ∧
    ∀ i ∈ init, i.op ≠ .ret := by
  obtain ⟨init, hcode, hlinks⟩ := u.code_eq
  refine ⟨init, hcode, fun i hi hop => ?_⟩
  have hmem : i ∈ Expr.links init := List.mem_filter.mpr ⟨hi, by rw [hop]; rfl⟩
  rw [hlinks] at hmem
  have hmakes := makesClosure_of_mem hmem
  rw [hop] at hmakes
  cases hmakes

theorem filter_makesClosure (u : CodeUnit) : (u.code.filter fun i => i.op.makesClosure) =
    u.own ++ u.made.map fun c => c.1.closure c.2 := by
  obtain ⟨init, hcode, hlinks⟩ := u.code_eq
  have hinit : (init.filter fun i => i.op.makesClosure) =
      (Expr.links init).filter fun i => i.op.makesClosure := by
    rw [Expr.links, List.filter_filter]
    refine List.filter_congr fun i _ => ?_
    cases i.op <;> rfl
  rw [hcode, List.filter_append, hinit, hlinks,
    List.filter_eq_self.mpr fun _ => makesClosure_of_mem]
  exact List.append_nil _

end CodeUnit

/-- A program is linked from units, in the order of their code. -/
structure Executable.Linked (program : List Expr) (exe : Executable) (units : List CodeUnit) :
    Prop where
  /-- Every function of the program has one unit. -/
  nodes : (units.map CodeUnit.node).Perm (program.flatMap Expr.functionNodes)
  /-- Those of the top level have no number. -/
  topLevel : ((units.filter fun u => u.number.isNone).map fun u => u.node.expr).Perm program
  /-- The others have different numbers. -/
  numbers : (units.filterMap CodeUnit.number).Nodup
  /-- No two have one name. -/
  names : (units.map CodeUnit.name).Nodup
  /-- There is one entry for each unit, under its name. -/
  keys : (exe.functions.map Prod.fst).Perm (units.map CodeUnit.name)
  /-- An entry has the parameters and the tag of its function, and says where its code begins. -/
  located {before after : List CodeUnit} {u : CodeUnit} : units = before ++ u :: after →
    exe.function? u.name = some
      ⟨(before.flatMap CodeUnit.code).length, u.node.function.params, u.node.function.tag⟩
  /-- There is no other code, and none is shared. -/
  code : exe.code = units.flatMap CodeUnit.code
  /-- The code of a unit ends in its only return. -/
  returns : ∀ u ∈ units, ∃ init, u.code = init ++ [u.node.function.body.emit .ret] ∧
    ∀ i ∈ init, i.op ≠ .ret
  /-- Jumps stay in the code of their unit. -/
  jumps {u : CodeUnit} {k : Nat} {i : Instruction} {offset : Int} : u ∈ units →
    u.code[k]? = some i → i.op = .jump offset ∨ i.op = .jumpIf offset →
    ∃ target < u.code.length, (target : Int) = k + offset
  /-- The closures that a unit makes are those of the functions in it, in order, and its own. -/
  closures : ∀ u ∈ units, (u.code.filter fun i => i.op.makesClosure) =
    u.own ++ u.made.map fun c => c.1.closure c.2
  /-- Every unit inside another one is made at one place. -/
  made : ((units.flatMap CodeUnit.made).map fun c => (c.1, some c.2)).Perm
    ((units.filter fun u => u.number.isSome).map CodeUnit.label)
  /-- What makes a closure has the name of the unit that it is for. -/
  named : ∀ u ∈ units, ∀ c ∈ u.made, ∃ v ∈ units, v.node = c.1 ∧ v.number = some c.2 ∧
    (c.1.closure c.2).op = .makeClosure v.name

/-- Functions that are those of regions in order make up units. -/
theorem exists_units {labels : List (FunctionNode × Option Nat)} {regions : List Region}
    (h : regions.map Region.function = labels.map fun p => p.1.compiled p.2) :
    ∃ units : List CodeUnit, units.map CodeUnit.region = regions ∧
      units.map CodeUnit.label = labels := by
  induction labels generalizing regions with
  | nil => exact ⟨[], (List.map_eq_nil_iff.mp h).symm, rfl⟩
  | cons p labels ih =>
    cases regions with
    | nil => cases h
    | cons r regions =>
      obtain ⟨hfirst, hrest⟩ := List.cons.inj h
      obtain ⟨units, hregions, hlabels⟩ := ih hrest
      refine ⟨⟨p.1, p.2, r.next⟩ :: units, ?_, congrArg (p :: ·) hlabels⟩
      rw [List.map_cons, hregions]
      exact congrArg (fun f => (⟨f, r.next⟩ : Region) :: regions) hfirst.symm

def labels (nodes : List FunctionNode) (made : List (FunctionNode × Nat)) :
    List (FunctionNode × Option Nat) :=
  nodes.map (fun n => (n, none)) ++ made.map fun c => (c.1, some c.2)

namespace CodeUnit

variable {units : List CodeUnit} {nodes : List FunctionNode}

/-! ### Units and the functions of a program -/

theorem perm_nodes (h : (units.map label).Perm (labels nodes (units.flatMap made))) :
    (units.map node).Perm (nodes ++ (units.flatMap made).map Prod.fst) := by
  simpa [labels, label, Function.comp_def] using h.map Prod.fst

theorem perm_topLevel (h : (units.map label).Perm (labels nodes (units.flatMap made))) :
    ((units.filter fun u => u.number.isNone).map node).Perm nodes := by
  have hfiltered := (h.filter fun p => p.2.isNone).map Prod.fst
  simpa [labels, label, List.filter_map, Function.comp_def] using hfiltered

theorem perm_made (h : (units.map label).Perm (labels nodes (units.flatMap made))) :
    ((units.flatMap made).map fun c => (c.1, some c.2)).Perm
      ((units.filter fun u => u.number.isSome).map label) := by
  have hfiltered := h.filter fun p => p.2.isSome
  simpa [labels, label, List.filter_map, Function.comp_def] using hfiltered.symm

theorem perm_numbers (h : (units.map label).Perm (labels nodes (units.flatMap made))) :
    (units.filterMap number).Perm ((units.flatMap made).map Prod.snd) := by
  have hnumbers := h.filterMap Prod.snd
  simpa [labels, label, List.filterMap_map, List.filterMap_append, Function.comp_def] using hnumbers

/-- The closure of a function has the name of its unit. -/
theorem exists_of_mem_made (h : (units.map label).Perm (labels nodes (units.flatMap made)))
    {u : CodeUnit} (hu : u ∈ units) {c : FunctionNode × Nat} (hc : c ∈ u.made) :
    ∃ v ∈ units, v.node = c.1 ∧ v.number = some c.2 ∧
      (c.1.closure c.2).op = .makeClosure v.name := by
  have hmem : (c.1, some c.2) ∈ (units.flatMap made).map fun c => (c.1, some c.2) :=
    List.mem_map_of_mem (List.mem_flatMap.mpr ⟨u, hu, hc⟩)
  obtain ⟨v, hv, hlabel⟩ := List.mem_map.mp ((perm_made h).mem_iff.mp hmem)
  obtain ⟨hnode, hnumber⟩ := Prod.mk.inj hlabel
  refine ⟨v, (List.mem_filter.mp hv).1, hnode, hnumber, ?_⟩
  rw [name_of_number hnumber, hnode]
  rfl

end CodeUnit

section Program

variable {program : List Expr} {exe : Executable}

/-- The functions of a program with their numbers are those of its regions, in another order. -/
theorem exists_units_of_programError? (h : programError? [] program = none) :
    ∃ (nodes : List FunctionNode) (units : List CodeUnit),
      nodes.map FunctionNode.expr = program ∧
      units.map CodeUnit.region = numberedFunctions program ∧
      (units.map CodeUnit.label).Perm (labels nodes (units.flatMap CodeUnit.made)) ∧
      (nodes ++ (units.flatMap CodeUnit.made).map Prod.fst).Perm
        (program.flatMap Expr.functionNodes) ∧
      ((units.flatMap CodeUnit.made).map Prod.snd).Nodup := by
  obtain ⟨nodes, hnodes, hfunctions, hfaults⟩ := exists_nodes_of_programError? h
  have hperm : ((numberedFunctions program).map Region.function).Perm
      ((labels nodes (Region.madeNodes (numberedFunctions program))).map
        fun p => p.1.compiled p.2) := by
    have hperm := regionsFrom_perm 0 (program.filterMap Expr.function?)
    rw [Region.made_eq_madeNodes, hfunctions] at hperm
    simpa [labels, numberedFunctions, hfunctions, Function.comp_def] using hperm
  obtain ⟨ordered, hordered, hlabels⟩ :=
    (congrFun (congrFun (List.eq_map_comp_perm _) _) _).mpr hperm
  obtain ⟨units, hregions, hunits⟩ := exists_units hordered
  have hmade : Region.madeNodes (numberedFunctions program) = units.flatMap CodeUnit.made := by
    rw [← hregions, Region.madeNodes, List.flatMap_map]
    exact List.flatMap_congr fun u _ => by rw [CodeUnit.region, FunctionNode.compiled_body]; rfl
  have hnumbered :=
    Region.madeNodes_eq (regionsFrom_consecutive 0 (program.filterMap Expr.function?))
  have hfault : ∀ r ∈ numberedFunctions program, r.function.body.fault? = none := by
    refine fault?_regionsFrom ?_ 0
    rw [hfunctions]
    simpa using hfaults
  have hinner : ((units.flatMap CodeUnit.made).map Prod.fst).Perm
      ((program.filterMap Expr.function?).flatMap fun f => f.body.functionNodes) := by
    have hregionNodes := perm_regionsFrom 0 hfault
    rwa [← List.zipIdx_map_fst 0 (List.flatMap _ _), ← hnumbered, ← numberedFunctions, hmade]
      at hregionNodes
  have hprogram : program.flatMap Expr.functionNodes = Expr.deepened nodes := by
    rw [← hnodes, List.flatMap_map]
    exact List.flatMap_congr fun n _ => Expr.functionNodes_expr n
  rw [hfunctions, List.flatMap_map] at hinner
  refine ⟨nodes, units, hnodes, hregions, by rwa [hunits, ← hmade], ?_, ?_⟩
  · rw [hprogram]
    refine (hinner.append_left nodes).trans ?_
    simpa [Expr.deepened] using
      List.map_append_flatMap_perm nodes id fun n => n.function.body.functionNodes
  · rw [← hmade, numberedFunctions, hnumbered, List.zipIdx_map_snd]
    exact List.nodup_range'

/-- The entries of regions that stand after others. -/
theorem Executable.entries_append (location : Nat) (a b : List Region) :
    entries location (a ++ b) =
      entries location a ++ entries (location + (a.flatMap Region.code).length) b := by
  induction a generalizing location with
  | nil => simp [entries]
  | cons r rest ih => simp [entries, ih, Nat.add_assoc]

/-- A program that is accepted is linked from units, one for each function in it. -/
theorem linked_of_compile (h : compile program = .ok exe)
    (hnamed : ∀ f ∈ program.filterMap Expr.function?, f.Named) :
    ∃ units, exe.Linked program units := by
  obtain ⟨hnone, rfl⟩ := programError?_of_compile h
  obtain ⟨nodes, units, hnodes, hregions, hlabels, hfunctions, hnumbers⟩ :=
    exists_units_of_programError? hnone
  have hnames : (units.map CodeUnit.name).Nodup := by
    have hnodup : ((numberedFunctions program).map fun r => r.function.name).Nodup :=
      nodup_regionsFrom 0 (nodup_of_programError? hnone).1 hnamed
    simpa [← hregions, Function.comp_def] using hnodup
  have hentries : (Executable.entries 0 (numberedFunctions program)).map Prod.fst =
      units.map CodeUnit.name := by
    simp [Executable.entries_names, ← hregions]
  refine ⟨units, ?_⟩
  constructor
  case nodes => exact (CodeUnit.perm_nodes hlabels).trans hfunctions
  case topLevel =>
    have hexprs := (CodeUnit.perm_topLevel hlabels).map FunctionNode.expr
    rwa [List.map_map, hnodes] at hexprs
  case numbers => exact (CodeUnit.perm_numbers hlabels).nodup_iff.mpr hnumbers
  case names => exact hnames
  case keys =>
    rw [← hentries]
    exact (Table.perm_ofEntries (by rwa [hentries])).map Prod.fst
  case located =>
    intro before after u hsplit
    have hmem : (u.name, (⟨(before.flatMap CodeUnit.code).length, u.node.function.params,
        u.node.function.tag⟩ : FunctionEntry)) ∈
        Executable.entries 0 (numberedFunctions program) := by
      rw [← hregions, hsplit, List.map_append, Executable.entries_append, Nat.zero_add,
        List.flatMap_map, List.map_cons, Executable.entries]
      refine List.mem_append_right _ (List.mem_cons.mpr (.inl ?_))
      rw [CodeUnit.region_name, CodeUnit.region, FunctionNode.compiled_params,
        FunctionNode.compiled_tag]
      rfl
    exact (Table.get?_ofEntries (by rwa [hentries]) u.name).trans
      (Table.get?_of_mem_of_nodup (by rwa [hentries]) hmem)
  case code =>
    rw [Executable.link, ← hregions, List.flatMap_map]
    rfl
  case returns => exact fun u _ => u.exists_ret
  case jumps =>
    intro u k i offset hu hk hjump
    have hregion : u.region ∈ numberedFunctions program := hregions ▸ List.mem_map_of_mem hu
    obtain ⟨height, -, hplaced⟩ := Executable.placed_of_mem hregion
    have hoffset : offset ∈ i.op.offsets := by
      rcases hjump with h | h <;> simp [h, Op.offsets]
    obtain ⟨target, htarget, hlt, -⟩ := (hplaced k i hk).next hoffset
    exact ⟨target, hlt, by simpa using htarget⟩
  case closures => exact fun u _ => u.filter_makesClosure
  case made => exact CodeUnit.perm_made hlabels
  case named => exact fun u hu c => CodeUnit.exists_of_mem_made hlabels hu

end Program

/-- A definition inside another one, and a lambda and a conditional inside of it. -/
def layered : List Expr :=
  let name (x : String) : Expr := .ident Expr.nowhere x
  [.definition Expr.nowhere "main" ["x"] (.block Expr.nowhere
    [.definition Expr.nowhere "f" ["y"] (.conditional Expr.nowhere (name "y")
      (.lambda Expr.nowhere ["z"] (name "z")) none) (some "inner"),
    .call Expr.nowhere (name "f") [.positional (name "x")]]) none]

/-- Its functions are known by their names and numbers. -/
theorem linked_of_compile_layered : ∃ exe units, compile layered = .ok exe ∧
    exe.Linked layered units ∧ exe.functions.map Prod.fst = ["f:0", "lambda:1", "main"] := by
  have hnamed : ∀ f ∈ layered.filterMap Expr.function?, f.Named := by
    simp [layered, Expr.function?, Function.Named]
  have hcompile : compile layered = .ok (Executable.link (numberedFunctions layered)) := by
    rfl
  obtain ⟨units, hlinked⟩ := linked_of_compile hcompile hnamed
  exact ⟨_, units, hcompile, hlinked, by decide +kernel⟩

/-- A lambda in the place of an argument's keyword. -/
def slotted : List Expr :=
  [.definition Expr.nowhere "main" [] (.block Expr.nowhere
    [.call Expr.nowhere (.ident Expr.nowhere "f")
      [.argument Expr.nowhere (some (.lambda Expr.nowhere ["x"] (.ident Expr.nowhere "x")))
        (.literal Expr.nowhere (.integer 1))]]) none]

/-- The keyword of an argument is a symbol or stands for none, and other expressions in its place
are not compiled: a function there has no entry. -/
theorem exists_function_without_entry : ∃ exe, compile slotted = .ok exe ∧
    (∀ f ∈ slotted.filterMap Expr.function?, f.Named) ∧
    (∃ e ∈ slotted, Expr.Within (.lambda Expr.nowhere ["x"] (.ident Expr.nowhere "x")) e) ∧
    ∀ entry ∈ exe.functions, entry.2.params ≠ ["x"] := by
  refine ⟨Executable.link (numberedFunctions slotted), rfl, ?_, ?_, by decide +kernel⟩
  · simp [slotted, Expr.function?, Function.Named]
  · refine ⟨_, List.mem_cons_self, ?_⟩
    exact .part (.part (.part (.part .self List.mem_cons_self)
      (List.mem_cons_of_mem _ List.mem_cons_self)) List.mem_cons_self) List.mem_cons_self

end Teal
