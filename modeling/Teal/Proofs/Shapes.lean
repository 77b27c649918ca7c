import Teal.Proofs.Executables
import Teal.Proofs.Rendering

/-!
# The nodes of parsed programs

The grammar says where each form of expression stands. Taken node by node: a call has a name and
arguments, a function and a branch have a body that is not empty, and elsewhere there are neither
arguments nor bodies. So the faults that a program of the grammar can have are those that the
grammar does not speak of: what is defined, what is assigned to and what is started.

## Main definitions

* `Expr.place`: the place that a form of expression is for.
* `Expr.Within`: an expression occurs in another, at any depth.
* `Expr.WellMade`: an expression has the right forms in its places.

## Main statements

* `Expr.Shaped.wellMade`: the nodes of an expression of the grammar.
* `Expr.Shaped.noStray_given`: in an expression of the grammar no argument stands outside of a
  call.
* `wellMade_of_parseStream`: the nodes of a program that was read, and the errors it can have.
-/

namespace Teal

namespace Expr

def place : Expr → Place
  | .argument .. => .argument
  | .block .. => .body
  | _ => .operand

def parts : Expr → List Expr
  | .definition _ _ _ body _ | .lambda _ _ body => [body]
  | .call _ callee args => callee :: args
  | .argument _ keyword value => keyword.toList ++ [value]
  | .ident .. | .symbol .. | .literal .. => []
  | .binary _ _ left right => [left, right]
  | .conditional _ condition consequence alternative =>
    condition :: consequence :: alternative.toList
  | .async _ inner | .await _ inner => [inner]
  | .block _ items => items

inductive Within : Expr → Expr → Prop
  | self {e} : Within e e
  | part {e part whole} : Within e part → part ∈ whole.parts → Within e whole

/-- An expression has the right forms in its places: arguments, with a symbol for a keyword, in a
call and a name before them; a block as a body or a branch; blocks that are not empty; parameters
with different names; doubles that are finite. -/
def WellMade : Expr → Prop
  | .definition _ _ params body _ | .lambda _ params body => params.Nodup ∧ body.place = .body
  | .call _ callee args =>
    (∃ loc name, callee = .ident loc name) ∧ ∀ a ∈ args, a.place = .argument
  | .argument _ keyword value =>
    (∀ k ∈ keyword, ∃ loc name, k = .symbol loc name) ∧ value.place = .operand
  | .literal _ (.float x) => x.isFinite = true
  | .ident .. | .symbol .. | .literal .. => True
  | .binary _ _ left right => left.place = .operand ∧ right.place = .operand
  | .conditional _ condition consequence alternative =>
    condition.place = .operand ∧ consequence.place = .body ∧
      ∀ e ∈ alternative, e.isConditional = true ∨ e.place = .body
  | .async _ inner | .await _ inner => inner.place = .operand
  | .block _ items => items ≠ [] ∧ ∀ e ∈ items, e.place = .operand

namespace Shaped

variable {place : Place} {e part : Expr}

/-- An expression of the grammar stands in the place that its form is for. -/
theorem place_eq (h : e.Shaped place) : e.place = place := by
  cases h <;> rfl

/-- The parts of an expression of the grammar are of the grammar. -/
theorem parts (h : e.Shaped place) (hpart : part ∈ e.parts) : ∃ place, part.Shaped place := by
  cases h with
  | ident | symbol | literal => simp [Expr.parts] at hpart
  | binary hleft hright =>
    simp only [Expr.parts, List.mem_cons, List.not_mem_nil, or_false] at hpart
    rcases hpart with rfl | rfl
    · exact ⟨_, hleft⟩
    · exact ⟨_, hright⟩
  | async hinner | await hinner =>
    obtain rfl : part = _ := by simpa [Expr.parts] using hpart
    exact ⟨_, hinner⟩
  | call hargs =>
    rcases List.mem_cons.mp hpart with rfl | hpart
    · exact ⟨_, .ident⟩
    · exact ⟨_, hargs part hpart⟩
  | positional hvalue =>
    obtain rfl : part = _ := by simpa [Expr.parts] using hpart
    exact ⟨_, hvalue⟩
  | keyword hvalue =>
    simp only [Expr.parts, Option.toList_some, List.cons_append, List.nil_append, List.mem_cons,
      List.not_mem_nil, or_false] at hpart
    rcases hpart with rfl | rfl
    · exact ⟨_, .symbol⟩
    · exact ⟨_, hvalue⟩
  | block _ hitems => exact ⟨_, hitems part hpart⟩
  | lambda _ hbody | definition _ hbody =>
    obtain rfl : part = _ := by simpa [Expr.parts] using hpart
    exact ⟨_, hbody⟩
  | conditional hcondition hconsequence =>
    simp only [Expr.parts, Option.toList_none, List.mem_cons, List.not_mem_nil, or_false] at hpart
    rcases hpart with rfl | rfl
    · exact ⟨_, hcondition⟩
    · exact ⟨_, hconsequence⟩
  | otherwise hcondition hconsequence halternative | elif hcondition hconsequence halternative =>
    simp only [Expr.parts, Option.toList_some, List.mem_cons, List.not_mem_nil, or_false] at hpart
    rcases hpart with rfl | rfl | rfl
    · exact ⟨_, hcondition⟩
    · exact ⟨_, hconsequence⟩
    · exact ⟨_, halternative⟩

/-- An expression of the grammar has the right forms in its places. -/
theorem wellMade (h : e.Shaped place) : e.WellMade := by
  cases h with
  | ident | symbol => trivial
  | @literal _ value hspelled =>
    cases value with
    | float x => exact Literal.isFinite_of_spelled hspelled
    | _ => trivial
  | binary hleft hright => exact ⟨hleft.place_eq, hright.place_eq⟩
  | async hinner | await hinner => exact hinner.place_eq
  | call hargs => exact ⟨⟨_, _, rfl⟩, fun a ha => (hargs a ha).place_eq⟩
  | positional hvalue => exact ⟨by simp, hvalue.place_eq⟩
  | keyword hvalue => exact ⟨by simp, hvalue.place_eq⟩
  | block hne hitems => exact ⟨hne, fun e he => (hitems e he).place_eq⟩
  | lambda hparams hbody | definition hparams hbody => exact ⟨hparams, hbody.place_eq⟩
  | conditional hcondition hconsequence =>
    exact ⟨hcondition.place_eq, hconsequence.place_eq, by simp⟩
  | otherwise hcondition hconsequence halternative =>
    refine ⟨hcondition.place_eq, hconsequence.place_eq, ?_⟩
    rintro _ ⟨⟩
    exact .inr halternative.place_eq
  | elif hcondition hconsequence =>
    refine ⟨hcondition.place_eq, hconsequence.place_eq, ?_⟩
    rintro _ ⟨⟩
    exact .inl rfl

/-- What occurs in an expression of the grammar is of the grammar. -/
theorem within (h : e.Shaped place) {node : Expr} (hnode : node.Within e) :
    ∃ place, node.Shaped place := by
  induction hnode generalizing place with
  | self => exact ⟨place, h⟩
  | part _ hpart ih =>
    obtain ⟨place', hshaped⟩ := h.parts hpart
    exact ih hshaped

end Shaped

/-! ## Faults -/

/-- The first fault, if there is one, is no argument outside of a call. -/
def NoStray (fault : Option CompileError) : Prop :=
  ∀ loc, fault ≠ some (.strayArgument loc)

theorem noStray_or {a b : Option CompileError} (ha : NoStray a) (hb : NoStray b) :
    NoStray (a.or b) := by
  cases a with
  | none => exact hb
  | some error => exact ha

theorem noStray_itemFault? {items : List Expr} (h : ∀ e ∈ items, NoStray e.fault?) :
    NoStray (itemFault? items) := by
  induction items with
  | nil => intro loc; simp [itemFault?]
  | cons e rest ih =>
    rw [List.forall_mem_cons] at h
    exact noStray_or h.1 (ih h.2)

/-- What an argument gives to a call; any other expression stands for itself. -/
def given : Expr → Expr
  | .argument _ _ value => value
  | e => e

theorem noStray_argumentFault? {args : List Expr} (h : ∀ a ∈ args, NoStray a.given.fault?) :
    NoStray (argumentFault? args) := by
  induction args with
  | nil => intro loc; simp [argumentFault?]
  | cons a rest ih =>
    rw [List.forall_mem_cons] at h
    have hcons : argumentFault? (a :: rest) = a.given.fault?.or (argumentFault? rest) := by
      cases a <;> rfl
    rw [hcons]
    exact noStray_or h.1 (ih h.2)

theorem Shaped.given_eq {place : Place} {e : Expr} (h : e.Shaped place) (hne : place ≠ .argument) :
    e.given = e := by
  cases h <;> first | rfl | exact absurd rfl hne

/-- In what stands in a place of the grammar, no argument stands outside of a call. -/
theorem Shaped.noStray_given {place : Place} {e : Expr} (h : e.Shaped place) :
    NoStray e.given.fault? := by
  have here {place : Place} {e : Expr} (h : e.Shaped place) (ih : NoStray e.given.fault?)
      (hne : place ≠ .argument := by simp) : NoStray e.fault? := by
    rwa [h.given_eq hne] at ih
  induction h with
  | ident | symbol | literal | lambda | definition => intro loc; simp [given, fault?]
  | @binary _ op left _ hleft hright ihLeft ihRight =>
    have hright := here hright ihRight
    cases op with
    | calculate op => exact noStray_or (here hleft ihLeft) hright
    | assign =>
      cases left with
      | ident => exact hright
      | _ => intro loc; simp [given, fault?]
  | @async _ inner hinner ih =>
    cases inner with
    | call => exact ih
    | _ => intro loc; simp [given, fault?]
  | await hinner ih =>
    have hinner := here hinner ih
    exact hinner
  | call hargs ih => exact noStray_or (noStray_argumentFault? ih) (by intro loc; simp [fault?])
  | positional hvalue ih | keyword hvalue ih => exact here hvalue ih
  | block _ hitems ih => exact noStray_itemFault? fun e he => here (hitems e he) (ih e he)
  | conditional hcondition hconsequence ihCondition ihConsequence =>
    exact noStray_or (here hcondition ihCondition) (here hconsequence ihConsequence)
  | otherwise hcondition hconsequence halternative ihCondition ihConsequence ihAlternative
  | elif hcondition hconsequence halternative ihCondition ihConsequence ihAlternative =>
    exact noStray_or (here hcondition ihCondition)
      (noStray_or (here halternative ihAlternative) (here hconsequence ihConsequence))

end Expr

/-- A function with a body of the grammar, and the functions inside it, have no argument outside of
a call. -/
theorem Function.noStray_fault? {f : Function} (h : f.body.Shaped .body) :
    Expr.NoStray f.fault? := by
  intro loc hfault
  obtain ⟨r, hr, hfault⟩ := List.exists_of_findSome?_eq_some hfault
  have hbody : r.function.body.Shaped .body :=
    Region.bodies_family (fun _ => Expr.Shaped.functions) (by simpa using h) r hr
  rw [← hbody.given_eq (by simp)] at hfault
  exact hbody.noStray_given loc hfault

theorem noStray_programError? {program : List Expr} (h : ∀ e ∈ program, e.Shaped .operand)
    (seen : List String) : Expr.NoStray (programError? seen program) := by
  induction program generalizing seen with
  | nil => intro loc; simp [programError?]
  | cons e rest ih =>
    rw [List.forall_mem_cons] at h
    have hrest := ih h.2
    cases h.1 with
    | definition _ hbody =>
      simp only [programError?, Expr.function?]
      split
      · intro loc; simp
      · exact Expr.noStray_or (Function.noStray_fault? hbody) (hrest _)
    | _ => intro loc; simp [programError?, Expr.function?]

/-- In a program that was read, from any tokens, every node has the right forms in its places, and
no argument or block stands at the outermost level. Such a program is compiled, or is refused for
what it defines, assigns to or starts; and no instruction that may be written for it is refused for
its operands. -/
theorem wellMade_of_parseStream {source : Source} {stream : TokenStream} {program : List Expr}
    (h : source.parseStream stream = .ok program) :
    (∀ e ∈ program, e.place = .operand ∧ ∀ node : Expr, node.Within e → node.WellMade) ∧
    ((∃ exe, compile program = .ok exe) ∨ ∃ error, compile program = .error error ∧
      ((∃ loc, error = .topLevelExpression loc) ∨
        (∃ name loc, error = .duplicateFunction name loc) ∨
        (∃ loc, error = .invalidAssignment loc) ∨ ∃ loc, error = .asyncRequiresCall loc)) ∧
    ∀ r ∈ numberedFunctions program, ∀ i ∈ r.code, Op.Accepts i.op.opcode i.op.operands := by
  have shaped : ∀ e ∈ program, e.Shaped .operand := (Parser.shaped_programFrom _ _).of_ok h
  refine ⟨fun e he => ⟨(shaped e he).place_eq, fun node hnode => ?_⟩, ?_,
    fun r _ i _ => i.op.accepts_operands⟩
  · obtain ⟨place, hnode⟩ := (shaped e he).within hnode
    exact hnode.wellMade
  · unfold compile
    split
    · next error herror =>
      refine .inr ⟨error, rfl, ?_⟩
      cases error with
      | strayArgument loc => exact absurd herror (noStray_programError? shaped [] loc)
      | _ => simp
    · exact .inl ⟨_, rfl⟩

def Source.branches : Source where
  filename := "branches.tl"
  text := "fn main(x) \x7b if x > 1.5 \x7b g([x, 2], :k \x7b1: x\x7d) \x7d " ++
    "elif x \x7b async g() \x7d else \x7b await lambda(y, z) \x7b y \x7d \x7d \x7d"

/-- Such a program is read; its nodes have the right forms in their places, and it is compiled or
refused for one of the four faults. -/
theorem wellMade_branches : ∃ program,
    Source.branches.parseStream Source.branches.lex.terminate = .ok program ∧
    (∀ e ∈ program, e.place = .operand ∧ ∀ node : Expr, node.Within e → node.WellMade) ∧
    ((∃ exe, compile program = .ok exe) ∨ ∃ error, compile program = .error error ∧
      ((∃ loc, error = .topLevelExpression loc) ∨
        (∃ name loc, error = .duplicateFunction name loc) ∨
        (∃ loc, error = .invalidAssignment loc) ∨ ∃ loc, error = .asyncRequiresCall loc)) ∧
    ∀ r ∈ numberedFunctions program, ∀ i ∈ r.code, Op.Accepts i.op.opcode i.op.operands := by
  have reads : (Source.branches.parseStream Source.branches.lex.terminate).isOk = true := by
    decide +kernel
  cases h : Source.branches.parseStream Source.branches.lex.terminate with
  | error e => simp [h, Except.isOk, Except.toBool] at reads
  | ok program => exact ⟨program, rfl, wellMade_of_parseStream h⟩

end Teal
