import Teal.Proofs.Equality
import Teal.Proofs.Executables
import Teal.Proofs.Families
import Teal.Proofs.Layout
import Teal.Script

/-!
# Layout does not count

Locations go from tokens to expressions and on into the source traces of instructions, beside what
decides how a program is compiled and run. Source units with the same tokens, whatever their names,
comments, blanks and line breaks, fail alike, or have the same expressions but for locations; these
are refused alike, or compiled to equal programs; and equal programs run alike.

## Main definitions

* `CompileError.bare`, `Executable.bare`: errors without places, and programs without traces.
* `Executable.same`: equality of programs; the source traces do not count.
* `Source.SameTokens`: source units that differ in layout only.

## Main statements

* `compile_bare`: programs that differ in locations are compiled alike.
* `Executable.evaluate_bare`: a program runs as it does without its traces.
* `layout_independent`: from source units to results.
-/

namespace Teal

open Teal.Expr (nowhere)
open List (Forall₂)

def CompileError.bare : CompileError → CompileError
  | .topLevelExpression _ => .topLevelExpression nowhere
  | .duplicateFunction name _ => .duplicateFunction name nowhere
  | .invalidAssignment _ => .invalidAssignment nowhere
  | .asyncRequiresCall _ => .asyncRequiresCall nowhere
  | .strayArgument _ => .strayArgument nowhere

def Function.bare (f : Function) : Function :=
  { f with body := f.body.bare }

def Instruction.bare (i : Instruction) : Instruction :=
  { i with source := [] }

def Executable.bare (exe : Executable) : Executable :=
  { exe with code := exe.code.map Instruction.bare }

/-! ## Expressions -/

namespace Expr

@[simp] theorem bare_emit (e : Expr) (op : Op) : (e.emit op).bare = ⟨op, []⟩ := rfl

@[simp] theorem keyword_bare (e : Expr) : e.bare.keyword = e.keyword := by
  rcases e with _ | _ | _ | ⟨_, _ | k, _⟩ | _ | _ | _ | _ | _ | _ | _ | _
  case argument.some => cases k <;> rfl
  all_goals rfl

mutual

theorem functionCount_bare : (e : Expr) → e.bare.functionCount = e.functionCount
  | .definition _ _ _ body _ | .lambda _ _ body => by
    simp only [bare, functionCount, functionCount_bare body]
  | .ident .. | .symbol .. | .literal .. => rfl
  | .argument _ _ value => functionCount_bare value
  | .binary _ _ left right => by
    simp only [bare, functionCount, functionCount_bare left, functionCount_bare right]
  | .call _ callee args => by
    simp only [bare, functionCount, functionCountOfAll_bare args, functionCount_bare callee]
  | .async _ inner | .await _ inner => functionCount_bare inner
  | .conditional _ condition consequence alternative => by
    simp only [bare, functionCount, functionCount_bare condition, functionCount_bare consequence,
      functionCountOfElse_bare alternative]
  | .block _ items => functionCountOfAll_bare items

theorem functionCountOfAll_bare : (es : List Expr) →
    functionCountOfAll (bareAll es) = functionCountOfAll es
  | [] => rfl
  | e :: rest => by
    simp only [bareAll, functionCountOfAll, functionCount_bare e, functionCountOfAll_bare rest]

theorem functionCountOfElse_bare : (e : Option Expr) →
    functionCountOfElse (bareOption e) = functionCountOfElse e
  | none => rfl
  | some e => functionCount_bare e

end

mutual

theorem functions_bare : (e : Expr) → e.bare.functions = e.functions.map Function.bare
  | .definition .. | .lambda .. | .ident .. | .symbol .. | .literal .. => rfl
  | .argument _ _ value => functions_bare value
  | .binary _ .assign _ right => functions_bare right
  | .binary _ (.calculate _) left right => by
    simp only [bare, functions, functions_bare left, functions_bare right, List.map_append]
  | .call _ callee args => by
    simp only [bare, functions, functionsOfAll_bare args, functions_bare callee, List.map_append]
  | .async _ inner | .await _ inner => functions_bare inner
  | .conditional _ condition consequence alternative => by
    simp only [bare, functions, functions_bare condition, functionsOfElse_bare alternative,
      functions_bare consequence, List.map_append]
  | .block _ items => functionsOfAll_bare items

theorem functionsOfAll_bare : (es : List Expr) →
    functionsOfAll (bareAll es) = (functionsOfAll es).map Function.bare
  | [] => rfl
  | e :: rest => by
    simp only [bareAll, functionsOfAll, functions_bare e, functionsOfAll_bare rest, List.map_append]

theorem functionsOfElse_bare : (e : Option Expr) →
    functionsOfElse (bareOption e) = (functionsOfElse e).map Function.bare
  | none => rfl
  | some e => functions_bare e

end

mutual

theorem fault?_bare : (e : Expr) → e.bare.fault? = e.fault?.map CompileError.bare
  | .definition .. | .lambda .. | .ident .. | .symbol .. | .literal .. | .argument .. => rfl
  | .binary _ .assign left right => by
    cases left with
    | ident => exact fault?_bare right
    | _ => rfl
  | .binary _ (.calculate _) left right => by
    simp only [bare, fault?, fault?_bare left, fault?_bare right, Option.map_or]
  | .call _ callee args => by
    simp only [bare, fault?, argumentFault?_bare args, fault?_bare callee, Option.map_or]
  | .async _ inner => by
    cases inner with
    | call _ callee args =>
      simp only [bare, fault?, argumentFault?_bare args, fault?_bare callee, Option.map_or]
    | _ => rfl
  | .await _ inner => fault?_bare inner
  | .conditional _ condition consequence alternative => by
    simp only [bare, fault?, fault?_bare condition, alternativeFault?_bare alternative,
      fault?_bare consequence, Option.map_or]
  | .block _ items => itemFault?_bare items

theorem argumentFault?_bare : (args : List Expr) →
    argumentFault? (bareAll args) = (argumentFault? args).map CompileError.bare
  | [] => rfl
  | e :: rest => by
    have he := fault?_bare e
    have hrest := argumentFault?_bare rest
    rw [bareAll]
    cases e with
    | argument _ _ value =>
      simp only [bare, argumentFault?, fault?_bare value, hrest, Option.map_or]
    | _ =>
      rw [bare] at he ⊢
      rw [argumentFault?, argumentFault?, Option.map_or, he, hrest] <;> nofun

theorem alternativeFault?_bare : (e : Option Expr) →
    alternativeFault? (bareOption e) = (alternativeFault? e).map CompileError.bare
  | none => rfl
  | some e => fault?_bare e

theorem itemFault?_bare : (items : List Expr) →
    itemFault? (bareAll items) = (itemFault? items).map CompileError.bare
  | [] => rfl
  | e :: rest => by
    simp only [bareAll, itemFault?, fault?_bare e, itemFault?_bare rest, Option.map_or]

end

/-- The code of a branch, from the code of its parts. -/
theorem bare_branching {c c' o o' k k' : List Instruction} {self self' : Expr}
    (hc : c.map Instruction.bare = c'.map Instruction.bare)
    (ho : o.map Instruction.bare = o'.map Instruction.bare)
    (hk : k.map Instruction.bare = k'.map Instruction.bare) :
    (c ++ [self.emit (.jumpIf (o.length + 2))] ++ o ++ [self.emit (.jump (k.length + 1))] ++
      k).map Instruction.bare =
    (c' ++ [self'.emit (.jumpIf (o'.length + 2))] ++ o' ++ [self'.emit (.jump (k'.length + 1))] ++
      k').map Instruction.bare := by
  have holength : o.length = o'.length := by simpa using congrArg List.length ho
  have hklength : k.length = k'.length := by simpa using congrArg List.length hk
  simp only [List.map_append, List.map_cons, List.map_nil, bare_emit, hc, ho, hk, holength,
    hklength]

/-- The code of a call, from the code of its parts. -/
theorem bare_calling {callee : Expr} {args : List Expr} {i j : Instruction}
    (hargs : ∀ next, (codeOfAll next (bareAll args)).map Instruction.bare =
      (codeOfAll next args).map Instruction.bare)
    (hcallee : ∀ next, (callee.bare.code next).map Instruction.bare =
      (callee.code next).map Instruction.bare)
    (next : Nat) (hij : i.bare = j.bare) :
    (codeOfAll next (bareAll args) ++
      callee.bare.code (next + (functionsOfAll (bareAll args)).length) ++ [i]).map Instruction.bare =
    (codeOfAll next args ++ callee.code (next + (functionsOfAll args).length) ++
      [j]).map Instruction.bare := by
  simp only [List.map_append, hargs, hcallee, functionsOfAll_bare, List.length_map, List.map_cons,
    List.map_nil, hij]

theorem keywords_bare (args : List Expr) : (bareAll args).map keyword = args.map keyword := by
  simp [Function.comp_def]

theorem length_bareAll (es : List Expr) : (bareAll es).length = es.length := by
  simp

mutual

/-- The code of an expression depends on its locations in the source traces only. -/
theorem code_bare : (e : Expr) → (next : Nat) →
    (e.bare.code next).map Instruction.bare = (e.code next).map Instruction.bare
  | .literal .., _ | .symbol .., _ | .ident .., _ | .lambda .., _ | .definition .., _ => rfl
  | .binary _ .assign left right, next => by
    cases left <;>
      simp only [bare, code, List.map_append, code_bare right, List.map_cons, List.map_nil,
        bare_emit]
  | .binary _ (.calculate _) left right, next => by
    simp only [bare, code, List.map_append, code_bare left, code_bare right, functions_bare,
      List.length_map, List.map_cons, List.map_nil, bare_emit]
  | .argument _ _ value, next => code_bare value next
  | .call _ callee args, next =>
    bare_calling (codeOfAll_bare args) (code_bare callee) next
      (by simp only [bare_emit, keywords_bare, length_bareAll])
  | .async _ inner, next => by
    have hinner := code_bare inner next
    cases inner with
    | call _ callee args =>
      exact bare_calling (codeOfAll_bare args) (code_bare callee) next
        (by simp only [bare_emit, keywords_bare, length_bareAll])
    | _ => exact hinner
  | .await _ inner, next => by
    simp only [bare, code, List.map_append, code_bare inner, List.map_cons, List.map_nil, bare_emit]
  | .conditional _ condition consequence alternative, next => by
    simp only [bare, code]
    refine bare_branching (code_bare condition next) ?_ ?_
    · rw [functions_bare, List.length_map]
      exact codeOfElse_bare alternative _ _ _ rfl
    · rw [functions_bare, List.length_map, functionsOfElse_bare, List.length_map]
      exact code_bare consequence _
  | .block _ items, next => by
    cases items with
    | nil => rfl
    | cons first rest =>
      simp only [bare, bareAll, code, List.map_append, code_bare first, codeOfRest_bare rest,
        functions_bare, List.length_map]

theorem codeOfAll_bare : (es : List Expr) → (next : Nat) →
    (codeOfAll next (bareAll es)).map Instruction.bare = (codeOfAll next es).map Instruction.bare
  | [], _ => rfl
  | e :: rest, next => by
    simp only [bareAll, codeOfAll, List.map_append, code_bare e, codeOfAll_bare rest,
      functions_bare, List.length_map]

theorem codeOfRest_bare : (es : List Expr) → (next : Nat) →
    (codeOfRest next (bareAll es)).map Instruction.bare =
      (codeOfRest next es).map Instruction.bare
  | [], _ => rfl
  | e :: rest, next => by
    simp only [bareAll, codeOfRest, List.map_append, code_bare e, codeOfRest_bare rest,
      functions_bare, List.length_map, List.map_cons, List.map_nil, bare_emit]

theorem codeOfElse_bare : (e : Option Expr) → (next : Nat) → (i j : Instruction) →
    i.bare = j.bare → (codeOfElse next i (bareOption e)).map Instruction.bare =
      (codeOfElse next j e).map Instruction.bare
  | none, _, _, _, h => by simp only [bareOption, codeOfElse, List.map_cons, List.map_nil, h]
  | some e, next, _, _, _ => code_bare e next

end

/-- Functions that are the same without locations. -/
theorem like_of_bare {f g : Function} (h : g.bare = f.bare) : f.Like Alike g :=
  ⟨(congrArg Function.name h :), (congrArg Function.params h :), (congrArg Function.tag h :),
    (congrArg Function.itself h :), (congrArg Function.body h :)⟩

theorem forall₂_of_map_eq {α β : Type} {f : α → β} {l l' : List α} (h : l.map f = l'.map f) :
    Forall₂ (fun a b => f b = f a) l l' := by
  rw [← List.forall₂_eq_eq_eq, List.forall₂_map_left_iff, List.forall₂_map_right_iff] at h
  exact h.imp fun _ _ => Eq.symm

theorem hereditary_alike : Hereditary Alike where
  functions {e e'} h := by
    have hfunctions : e'.functions.map Function.bare = e.functions.map Function.bare := by
      rw [← functions_bare, ← functions_bare, h]
    exact (forall₂_of_map_eq hfunctions.symm).imp fun f g => like_of_bare
  functionCount {e e'} h := by rw [← functionCount_bare e', h, functionCount_bare]

theorem sameRoot_of_alike {e e' : Expr} (h : e.Alike e') : e.SameRoot Alike e' := by
  unfold Alike at h
  cases e <;> cases e' <;> simp only [bare, reduceCtorEq] at h
  case definition.definition =>
    injection h with _ hname hparams hbody htag
    exact .inr ⟨_, _, rfl, rfl, hname, hparams, htag, rfl, hbody⟩
  all_goals exact .inl ⟨rfl, rfl⟩

end Expr

/-! ## Programs -/

/-- Functions that differ in locations have faults of the same kind. -/
theorem Function.Like.fault? {f g : Function} (h : f.Like Expr.Alike g) :
    g.fault?.map CompileError.bare = f.fault?.map CompileError.bare := by
  have hregions := Expr.hereditary_alike.regions h 0
  unfold Function.fault?
  generalize f.regions 0 = rs, g.regions 0 = ss at hregions
  induction hregions with
  | nil => rfl
  | @cons r s _ _ hd _ ih =>
    have hfault : s.function.body.fault?.map CompileError.bare =
        r.function.body.fault?.map CompileError.bare := by
      rw [← Expr.fault?_bare, ← Expr.fault?_bare, hd.function.body]
    rw [List.findSome?_cons, List.findSome?_cons]
    cases hr : r.function.body.fault? <;> cases hs : s.function.body.fault? <;>
      simp_all

theorem programError?_alike {p q : List Expr} (h : Forall₂ Expr.Alike p q) (seen : List String) :
    (programError? seen q).map CompileError.bare =
      (programError? seen p).map CompileError.bare := by
  induction h generalizing seen with
  | nil => rfl
  | cons hd _ ih =>
    simp only [programError?]
    rcases Expr.sameRoot_of_alike hd with ⟨he, he'⟩ | ⟨f, g, he, he', hlike⟩
    · rw [he, he']
      rfl
    · simp only [he, he', hlike.name]
      split
      · rfl
      · rw [Option.map_or, Option.map_or, hlike.fault?, ih]

theorem Region.Like.code {r s : Region} (h : r.Like Expr.Alike s) :
    s.code.map Instruction.bare = r.code.map Instruction.bare := by
  have hbody : (s.function.body.code s.next).map Instruction.bare =
      (r.function.body.code r.next).map Instruction.bare := by
    rw [← Expr.code_bare, h.function.body, h.next, Expr.code_bare]
  unfold Region.code Function.code
  simp only [List.map_append, hbody, h.function.itself, h.function.name]
  cases r.function.itself <;> rfl

/-- Regions that differ in locations are linked to programs that differ in source traces. -/
theorem Executable.bare_link {rs ss : List Region} (h : Forall₂ (Region.Like Expr.Alike) rs ss) :
    (link ss).bare = (link rs).bare := by
  have hentries (location : Nat) : entries location ss = entries location rs := by
    induction h generalizing location with
    | nil => rfl
    | cons hd _ ih =>
      have hlength := congrArg List.length hd.code
      rw [List.length_map, List.length_map] at hlength
      simp only [entries, hd.function.name, hd.function.params, hd.function.tag, hlength, ih]
  have hcode : (ss.flatMap Region.code).map Instruction.bare =
      (rs.flatMap Region.code).map Instruction.bare := by
    clear hentries
    induction h with
    | nil => rfl
    | cons hd _ ih => simp only [List.flatMap_cons, List.map_append, hd.code, ih]
  simp only [bare, link, hentries, hcode]

/-- Expressions that differ in locations are refused alike, or have programs that differ in source
traces. -/
theorem compile_bare {p q : List Expr} (h : q.map Expr.bare = p.map Expr.bare) :
    (∃ e e', compile p = .error e ∧ compile q = .error e' ∧ e'.bare = e.bare) ∨
      ∃ x y, compile p = .ok x ∧ compile q = .ok y ∧ y.bare = x.bare := by
  have halike : Forall₂ Expr.Alike p q := Expr.forall₂_of_map_eq h.symm
  have herror := programError?_alike halike []
  unfold compile
  rcases hp : programError? [] p with _ | e <;> rcases hq : programError? [] q with _ | e'
  · refine .inr ⟨_, _, rfl, rfl, Executable.bare_link (Expr.hereditary_alike.regionsFrom 0 ?_)⟩
    exact Expr.SameRoot.filterMap (halike.imp fun _ _ => Expr.sameRoot_of_alike)
  · simp [hp, hq] at herror
  · simp [hp, hq] at herror
  · exact .inl ⟨e, e', rfl, rfl, by simpa [hp, hq] using herror⟩

/-! ## Runs -/

section Run

variable (exe : Executable)

theorem Executable.function?_bare (name : String) : exe.bare.function? name = exe.function? name :=
  rfl

theorem Executable.instruction?_bare (ip : Nat) :
    exe.bare.instruction? ip = (exe.instruction? ip).map Instruction.bare := by
  simp [instruction?, bare]

theorem jumpTarget_bare (ip : Nat) (offset : Int) :
    jumpTarget exe.bare ip offset = jumpTarget exe ip offset := by
  simp [jumpTarget, Executable.bare]

/-- A step depends on the operation of its instruction, and not on its source trace. -/
theorem step_bare (w : World) (s : Session) : step exe.bare w s = step exe w s := by
  unfold step
  rw [Executable.instruction?_bare]
  cases exe.instruction? s.ip with
  | none => rfl
  | some i =>
    simp only [Option.map_some, Instruction.bare]
    cases i.op with
    | jump offset => simp only [execute, jumpTarget_bare]
    | jumpIf offset => simp only [execute, jumpTarget_bare]
    | _ => rfl

theorem slice_bare (budget : Nat) (w : World) (s : Session) :
    slice exe.bare budget w s = slice exe budget w s := by
  induction budget generalizing w s with
  | zero => rfl
  | succ budget ih => simp only [slice, step_bare, ih]

theorem World.runTurn_bare (settings : MachineSettings) (w : World) (id : TaskId) :
    w.runTurn exe.bare settings id = w.runTurn exe settings id := by
  simp only [runTurn, runSlice, slice_bare]

namespace Scheduler

def bare (c : Scheduler) : Scheduler :=
  { c with executable := c.executable.bare }

theorem conclude_bare (c : Scheduler) (id : TaskId) (o : Outcome) :
    c.bare.conclude id o = (c.conclude id o).bare := by
  cases o <;> rfl

theorem quantum_bare (c : Scheduler) :
    c.bare.quantum = c.quantum.map fun (done, d) => (done, d.bare) := by
  cases hqueue : c.world.queue with
  | nil => simp [quantum, bare, hqueue]
  | cons id queue =>
    obtain ⟨turn, hturn⟩ : ∃ turn, turn =
      { c.world with queue }.runTurn c.executable c.settings id := ⟨_, rfl⟩
    calc c.bare.quantum
        = some ((id, turn.1), { c with world := turn.2 }.bare.conclude id turn.1) := by
          simp [quantum, bare, hqueue, hturn, World.runTurn_bare]
      _ = some ((id, turn.1), ({ c with world := turn.2 }.conclude id turn.1).bare) := by
          rw [conclude_bare]
      _ = c.quantum.map fun (done, d) => (done, d.bare) := by simp [quantum, hqueue, hturn]

theorem run_bare (c : Scheduler) (n : Nat) : c.bare.run n = (c.run n).bare := by
  induction n generalizing c with
  | zero => rfl
  | succ n ih =>
    simp only [run, quantum_bare]
    cases c.quantum with
    | none => rfl
    | some next => exact ih next.2

end Scheduler

/-- A program runs as it does without its source traces. -/
theorem Executable.evaluate_bare (bound : Nat) (settings : MachineSettings) (entry : String)
    (args : List Value) :
    exe.bare.evaluate bound settings entry args = exe.evaluate bound settings entry args := by
  have hstart : Scheduler.start { executable := exe.bare, settings } entry args =
      (Scheduler.start { executable := exe, settings } entry args).map
        fun (id, c) => (id, c.bare) := by
    simp only [Scheduler.start, World.spawnCall, function?_bare]
    cases exe.function? entry with
    | none => rfl
    | some info =>
      simp only [bind, Except.bind]
      cases argumentBindings entry info.params [] args (args.map fun _ => .null) <;> rfl
  simp only [evaluate, hstart]
  cases Scheduler.start { executable := exe, settings } entry args with
  | error e => rfl
  | ok started =>
    obtain ⟨id, c⟩ := started
    simp only [Except.map, Scheduler.drain, Scheduler.run_bare]
    by_cases hidle : (c.run bound).world.queue.isEmpty
    · simp only [Scheduler.bare, hidle, if_true, Option.map_some]
      rfl
    · simp only [Scheduler.bare, hidle]
      rfl

end Run

/-! ## Equality of programs -/

/-- A value in which all doubles are finite has numbers only. -/
theorem Value.Finite.nanFree {v : Value} (h : v.Finite) : v.NaNFree := by
  intro x hx
  have hfinite : x.toModel.unpack.isFinite = true := h x hx
  change x.toModel.unpack.isNaN = false
  cases hu : x.toModel.unpack with
  | notANumber =>
    rw [hu] at hfinite
    cases hfinite
  | _ => rfl

/-- Equality of programs; the source traces do not count. -/
def Executable.same (x y : Executable) : Bool :=
  x.functions = y.functions && x.code.length = y.code.length &&
    (x.code.zip y.code).all fun (i, j) => i.same j

theorem Instruction.same_of_bare {i j : Instruction} (h : j.bare = i.bare) (hi : i.Finite) :
    i.same j = true := by
  have hop : j.op = i.op := (congrArg Instruction.op h :)
  simp only [same, hop, decide_true, Bool.true_and]
  exact Value.sameItems_iff.mpr
    (List.forall₂_same.mpr fun v hv => Value.same_self (hi v hv).nanFree)

/-- Programs that differ in source traces are equal if their constants are finite. -/
theorem Executable.same_of_bare {x y : Executable} (h : y.bare = x.bare)
    (hx : ∀ i ∈ x.code, i.Finite) : x.same y = true := by
  have hfunctions : y.functions = x.functions := (congrArg Executable.functions h :)
  have hcode : Forall₂ (fun i j => j.bare = i.bare) x.code y.code :=
    Expr.forall₂_of_map_eq (congrArg Executable.code h).symm
  simp only [same, hfunctions, hcode.length_eq, decide_true, Bool.true_and, List.all_eq_true]
  rintro ⟨i, j⟩ hmem
  exact Instruction.same_of_bare (List.forall₂_iff_zip.mp hcode |>.2 hmem)
    (hx i (List.of_mem_zip hmem).1)

/-! ## From source units to results -/

/-- Source units with the same tokens and no others: they differ in their names, and in where
their tokens stand. -/
structure Source.SameTokens (a b : Source) : Prop where
  left : a.lex.terminate.failure = none
  right : b.lex.terminate.failure = none
  faces : a.lex.terminate.tokens.map Token.face = b.lex.terminate.tokens.map Token.face

/-- Programs that differ in locations run alike. -/
theorem Executable.evaluate_of_bare {x y : Executable} (h : y.bare = x.bare) (bound : Nat)
    (settings : MachineSettings) (entry : String) (args : List Value) :
    y.evaluate bound settings entry args = x.evaluate bound settings entry args := by
  rw [← evaluate_bare y, h, evaluate_bare]

/-- Source units with the same tokens are refused by the parser for the same reason, or parsed to
expressions that differ in locations only. These are refused by the compiler for the same reason,
or compiled to equal programs, and every call of them ends alike. -/
theorem layout_independent {a b : Source} (h : a.SameTokens b) :
    (∃ e e', a.parse = .error e ∧ b.parse = .error e' ∧ e'.bare = e.bare) ∨
    ∃ p q, a.parse = .ok p ∧ b.parse = .ok q ∧ q.map Expr.bare = p.map Expr.bare ∧
      ((∃ e e', compile p = .error e ∧ compile q = .error e' ∧ e'.bare = e.bare) ∨
      ∃ x y, compile p = .ok x ∧ compile q = .ok y ∧ x.same y = true ∧
        ∀ bound settings entry args,
          y.evaluate bound settings entry args = x.evaluate bound settings entry args) := by
  have hparse := Source.erase_parse h.left h.right h.faces
  rcases ha : a.parse with e | p <;> rcases hb : b.parse with e' | q <;>
    simp only [ha, hb, Parser.erase, Except.error.injEq, Except.ok.injEq, reduceCtorEq] at hparse
  · exact .inl ⟨e, e', rfl, rfl, hparse.symm⟩
  · refine .inr ⟨p, q, rfl, rfl, hparse.symm, ?_⟩
    refine (compile_bare hparse.symm).imp_right fun hcompiled => ?_
    obtain ⟨x, y, hx, hy, hxy⟩ := hcompiled
    have finite : ∀ i ∈ x.code, i.Finite := fun i hi =>
      Instruction.finite_of_modest (modest_of_parse ha hx i hi)
    exact ⟨x, y, hx, hy, Executable.same_of_bare hxy finite, Executable.evaluate_of_bare hxy⟩

def Source.compact : Source where
  filename := "compact.tl"
  text := "fn main(n) \x7b f(n) + 1.5 \x7d fn f(n) \x7b n * 2 \x7d"

def Source.spacious : Source where
  filename := "spacious.tl"
  text := "// a call\nfn main( n ) \x7b  f(n) /* twice n */ + 1.5\n\x7d\n\nfn f(n) \x7b n*2 \x7d\n"

theorem Source.sameTokens_compact_spacious : compact.SameTokens spacious := by
  constructor <;> decide +kernel

/-- The two layouts of a program are compiled to equal programs, and every call of them ends
alike. -/
theorem layout_independent_compact : Source.compact.SameTokens Source.spacious ∧
    ∃ p q x y, Source.compact.parse = .ok p ∧ Source.spacious.parse = .ok q ∧
      q.map Expr.bare = p.map Expr.bare ∧ compile p = .ok x ∧ compile q = .ok y ∧
      x.same y = true ∧ ∀ bound settings entry args,
        y.evaluate bound settings entry args = x.evaluate bound settings entry args := by
  have compiles : Source.compact.compile.isOk = true := by decide +kernel
  refine ⟨Source.sameTokens_compact_spacious, ?_⟩
  rcases layout_independent Source.sameTokens_compact_spacious with
    ⟨e, -, hp, -⟩ | ⟨p, q, hp, hq, hbare, ⟨e, -, hx, -⟩ | ⟨x, y, hx, hy, hsame, hrun⟩⟩
  · simp [Source.compile, hp, Except.mapError, Except.isOk, Except.toBool, bind, Except.bind]
      at compiles
  · simp [Source.compile, hp, hx, Except.mapError, Except.isOk, Except.toBool, bind, Except.bind]
      at compiles
  · exact ⟨p, q, x, y, hp, hq, hbare, hx, hy, hsame, hrun⟩

end Teal
