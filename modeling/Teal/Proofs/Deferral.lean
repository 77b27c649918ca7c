import Teal.Proofs.Expansion
import Teal.Proofs.Induction

/-!
# Calls that are awaited at once

In an expression any calls, but for those that are started as tasks already, can be replaced by
tasks that are awaited at once. Such expressions make the same functions, are refused or accepted
alike, and the code of one is that of the other with some calls turned into tasks.

## Main definitions

* `Expr.Defers`: some calls of an expression are replaced by tasks awaited at once.

## Main statements

* `Expr.expands_code`: the code of such expressions.
* `exists_compile_of_defers`: programs of such expressions are accepted if one is.
-/

namespace Teal

open List (Forall₂)

namespace Expr

def isCall : Expr → Bool
  | .call .. => true
  | _ => false

/-- The second expression is the first one with `await async c` in the place of some calls `c`, at
any depth. The operand of `async` stays a call. Locations do not count. -/
inductive Defers : Expr → Expr → Prop
  | deferred {m n l l' : Location} {callee callee' : Expr} {args args' : List Expr} :
      Defers callee callee' → Forall₂ Defers args args' →
      Defers (.call l callee args) (.await m (.async n (.call l' callee' args')))
  | call {l l' : Location} {callee callee' : Expr} {args args' : List Expr} :
      Defers callee callee' → Forall₂ Defers args args' →
      Defers (.call l callee args) (.call l' callee' args')
  | async {l l' : Location} {inner inner' : Expr} :
      Defers inner inner' → inner'.isCall = inner.isCall →
      Defers (.async l inner) (.async l' inner')
  | await {l l' : Location} {inner inner' : Expr} :
      Defers inner inner' → Defers (.await l inner) (.await l' inner')
  | definition {l l' : Location} {name : String} {params : List String} {body body' : Expr}
      {tag : Option String} : Defers body body' →
      Defers (.definition l name params body tag) (.definition l' name params body' tag)
  | lambda {l l' : Location} {params : List String} {body body' : Expr} :
      Defers body body' → Defers (.lambda l params body) (.lambda l' params body')
  | argument {l l' : Location} {keyword keyword' : Option Expr} {value value' : Expr} :
      Option.Rel Defers keyword keyword' → Defers value value' →
      Defers (.argument l keyword value) (.argument l' keyword' value')
  | ident {l l' : Location} {name : String} : Defers (.ident l name) (.ident l' name)
  | symbol {l l' : Location} {name : String} : Defers (.symbol l name) (.symbol l' name)
  | literal {l l' : Location} {value : Literal} : Defers (.literal l value) (.literal l' value)
  | binary {l l' : Location} {op : BinaryOp} {left left' right right' : Expr} :
      Defers left left' → Defers right right' →
      Defers (.binary l op left right) (.binary l' op left' right')
  | conditional {l l' : Location} {condition condition' consequence consequence' : Expr}
      {alternative alternative' : Option Expr} :
      Defers condition condition' → Defers consequence consequence' →
      Option.Rel Defers alternative alternative' →
      Defers (.conditional l condition consequence alternative)
        (.conditional l' condition' consequence' alternative')
  | block {l l' : Location} {items items' : List Expr} :
      Forall₂ Defers items items' → Defers (.block l items) (.block l' items')

theorem Defers.refl (e : Expr) : Defers e e := by
  have all {es : List Expr} (h : ∀ e ∈ es, Defers e e) : Forall₂ Defers es es :=
    List.forall₂_same.mpr h
  have some {o : Option Expr} (h : ∀ e ∈ o, Defers e e) : Option.Rel Defers o o := by
    cases o with
    | none => exact .none
    | some e => exact .some (h e rfl)
  induction e with
  | definition _ _ _ _ _ ih => exact .definition ih
  | lambda _ _ _ ih => exact .lambda ih
  | call _ _ _ ih ihArgs => exact .call ih (all ihArgs)
  | argument _ _ _ ihKeyword ih => exact .argument (some ihKeyword) ih
  | ident => exact .ident
  | symbol => exact .symbol
  | literal => exact .literal
  | binary _ _ _ _ ihLeft ihRight => exact .binary ihLeft ihRight
  | conditional _ _ _ _ ih ihChosen ihElse => exact .conditional ih ihChosen (some ihElse)
  | async _ _ ih => exact .async ih rfl
  | await _ _ ih => exact .await ih
  | block _ _ ih => exact .block (all ih)

/-- The keyword of an argument is no call. -/
theorem Defers.keyword {e e' : Expr} (h : Defers e e') : e'.keyword = e.keyword := by
  cases h with
  | argument hk _ =>
    cases hk with
    | none => rfl
    | some hk => cases hk <;> rfl
  | _ => rfl

theorem Defers.keywords {args args' : List Expr} (h : Forall₂ Defers args args') :
    args'.map Expr.keyword = args.map Expr.keyword := by
  induction h with
  | nil => rfl
  | cons hd _ ih => rw [List.map_cons, List.map_cons, hd.keyword, ih]

/-! ## Functions -/

mutual

theorem functionCount_defers : (e : Expr) → {e' : Expr} → Defers e e' →
    e'.functionCount = e.functionCount
  | .definition .., _, .definition h | .lambda .., _, .lambda h => by
    simp only [functionCount, functionCount_defers _ h]
  | .ident .., _, .ident | .symbol .., _, .symbol | .literal .., _, .literal => rfl
  | .argument _ _ value, _, .argument _ h => (functionCount_defers value h :)
  | .binary .., _, .binary hl hr => by
    simp only [functionCount, functionCount_defers _ hl, functionCount_defers _ hr]
  | .call .., _, .call hc ha | .call .., _, .deferred hc ha => by
    simp only [functionCount, functionCount_defers _ hc, functionCountOfAll_defers _ ha]
  | .async _ inner, _, .async h _ | .await _ inner, _, .await h => (functionCount_defers inner h :)
  | .conditional .., _, .conditional hc hk ha => by
    simp only [functionCount, functionCount_defers _ hc, functionCount_defers _ hk,
      functionCountOfElse_defers _ ha]
  | .block .., _, .block h => functionCountOfAll_defers _ h
termination_by structural e => e

theorem functionCountOfAll_defers : (es : List Expr) → {es' : List Expr} → Forall₂ Defers es es' →
    functionCountOfAll es' = functionCountOfAll es
  | [], _, .nil => rfl
  | _ :: _, _, .cons h t => by
    simp only [functionCountOfAll, functionCount_defers _ h, functionCountOfAll_defers _ t]
termination_by structural es => es

theorem functionCountOfElse_defers : (o : Option Expr) → {o' : Option Expr} →
    Option.Rel Defers o o' → functionCountOfElse o' = functionCountOfElse o
  | none, _, .none => rfl
  | some _, _, .some h => functionCount_defers _ h
termination_by structural o => o

end

mutual

theorem functions_defers : (e : Expr) → {e' : Expr} → Defers e e' →
    Forall₂ (Function.Like Defers) e.functions e'.functions
  | .definition .., _, .definition h | .lambda .., _, .lambda h =>
    .cons ⟨rfl, rfl, rfl, rfl, h⟩ .nil
  | .ident .., _, .ident | .symbol .., _, .symbol | .literal .., _, .literal => .nil
  | .argument _ _ value, _, .argument _ h => (functions_defers value h :)
  | .binary _ .assign _ right, _, .binary _ h => (functions_defers right h :)
  | .binary _ (.calculate _) left right, _, .binary hl hr =>
    List.rel_append (functions_defers left hl) (functions_defers right hr)
  | .call _ callee args, _, .call hc ha | .call _ callee args, _, .deferred hc ha =>
    List.rel_append (functionsOfAll_defers args ha) (functions_defers callee hc)
  | .async _ inner, _, .async h _ | .await _ inner, _, .await h => (functions_defers inner h :)
  | .conditional _ condition consequence alternative, _, .conditional hc hk ha =>
    List.rel_append (List.rel_append (functions_defers condition hc)
      (functionsOfElse_defers alternative ha)) (functions_defers consequence hk)
  | .block _ items, _, .block h => functionsOfAll_defers items h
termination_by structural e => e

theorem functionsOfAll_defers : (es : List Expr) → {es' : List Expr} → Forall₂ Defers es es' →
    Forall₂ (Function.Like Defers) (functionsOfAll es) (functionsOfAll es')
  | [], _, .nil => .nil
  | e :: rest, _, .cons h t =>
    List.rel_append (functions_defers e h) (functionsOfAll_defers rest t)
termination_by structural es => es

theorem functionsOfElse_defers : (o : Option Expr) → {o' : Option Expr} → Option.Rel Defers o o' →
    Forall₂ (Function.Like Defers) (functionsOfElse o) (functionsOfElse o')
  | none, _, .none => .nil
  | some e, _, .some h => functions_defers e h
termination_by structural o => o

end

theorem hereditary_defers : Hereditary Defers :=
  ⟨functions_defers _, functionCount_defers _⟩

theorem Defers.functions_length {e e' : Expr} (h : Defers e e') :
    e'.functions.length = e.functions.length :=
  (functions_defers e h).length_eq.symm

theorem Defers.functionsOfAll_length {es es' : List Expr} (h : Forall₂ Defers es es') :
    (functionsOfAll es').length = (functionsOfAll es).length :=
  (functionsOfAll_defers es h).length_eq.symm

theorem Defers.functionsOfElse_length {o o' : Option Expr} (h : Option.Rel Defers o o') :
    (functionsOfElse o').length = (functionsOfElse o).length :=
  (functionsOfElse_defers o h).length_eq.symm

/-! ## Faults -/

mutual

theorem fault?_defers : (e : Expr) → {e' : Expr} → Defers e e' → e.fault? = none → e'.fault? = none
  | .definition .., _, .definition _, _ | .lambda .., _, .lambda _, _ | .ident .., _, .ident, _
  | .symbol .., _, .symbol, _ | .literal .., _, .literal, _ => rfl
  | .argument .., _, .argument .., h => by cases h
  | .binary _ .assign left right, _, .binary hl hr, h => by
    cases hl with
    | ident => exact (fault?_defers right hr h :)
    | _ => cases h
  | .binary _ (.calculate _) left right, _, .binary hl hr, h => by
    rw [fault?, Option.or_eq_none_iff] at h ⊢
    exact ⟨fault?_defers left hl h.1, fault?_defers right hr h.2⟩
  | .call _ callee args, _, .call hc ha, h | .call _ callee args, _, .deferred hc ha, h => by
    simp only [fault?, Option.or_eq_none_iff] at h ⊢
    exact ⟨argumentFault?_defers args ha h.1, fault?_defers callee hc h.2⟩
  | .async _ inner, _, .async hi hcall, h => by
    cases inner with
    | call _ callee args =>
      cases hi with
      | call hc ha =>
        simp only [fault?, Option.or_eq_none_iff] at h ⊢
        exact ⟨argumentFault?_defers args ha h.1, fault?_defers callee hc h.2⟩
      | deferred => cases hcall
    | _ => cases h
  | .await _ inner, _, .await hi, h => (fault?_defers inner hi h :)
  | .conditional _ condition consequence alternative, _, .conditional hc hk ha, h => by
    simp only [fault?, Option.or_eq_none_iff] at h ⊢
    exact ⟨fault?_defers condition hc h.1, alternativeFault?_defers alternative ha h.2.1,
      fault?_defers consequence hk h.2.2⟩
  | .block _ items, _, .block hi, h => itemFault?_defers items hi h
termination_by structural e => e

theorem argumentFault?_defers : (args : List Expr) → {args' : List Expr} →
    Forall₂ Defers args args' → argumentFault? args = none → argumentFault? args' = none
  | [], _, .nil, _ => rfl
  | e :: rest, _, .cons he ht, h => by
    have step := fault?_defers e he
    have steps := argumentFault?_defers rest ht
    cases he with
    | @argument _ _ _ _ value _ _ hv =>
      rw [argumentFault?, Option.or_eq_none_iff] at h ⊢
      exact ⟨fault?_defers value hv h.1, steps h.2⟩
    | _ =>
      rw [argumentFault?, Option.or_eq_none_iff] at h ⊢
      · exact ⟨step h.1, steps h.2⟩
      all_goals nofun
termination_by structural args => args

theorem alternativeFault?_defers : (o : Option Expr) → {o' : Option Expr} → Option.Rel Defers o o' →
    alternativeFault? o = none → alternativeFault? o' = none
  | none, _, .none, _ => rfl
  | some e, _, .some he, h => fault?_defers e he h
termination_by structural o => o

theorem itemFault?_defers : (items : List Expr) → {items' : List Expr} →
    Forall₂ Defers items items' → itemFault? items = none → itemFault? items' = none
  | [], _, .nil, _ => rfl
  | e :: rest, _, .cons he ht, h => by
    rw [itemFault?, Option.or_eq_none_iff] at h ⊢
    exact ⟨fault?_defers e he h.1, itemFault?_defers rest ht h.2⟩
termination_by structural items => items

end

/-! ## Code -/

/-- An instruction for an expression that is no jump. -/
theorem expands_emit (e e' : Expr) {op : Op} (h : op.jump? = none) :
    Expands [e.emit op] [e'.emit op] :=
  .one rfl h

mutual

/-- The code of an expression with some calls replaced by tasks. -/
theorem expands_code : (e : Expr) → {e' : Expr} → Defers e e' → (next : Nat) →
    Expands (e.code next) (e'.code next)
  | .literal .., _, .literal, _ | .symbol .., _, .symbol, _ | .ident .., _, .ident, _
  | .lambda .., _, .lambda _, _ => expands_emit _ _ rfl
  | .definition .., _, .definition _, _ => (expands_emit _ _ rfl).append (expands_emit _ _ rfl)
  | .binary _ .assign left right, _, .binary hl hr, next => by
    refine (expands_code right hr next).append ?_
    cases hl <;> exact expands_emit _ _ rfl
  | .binary _ (.calculate _) left right, _, .binary hl hr, next => by
    simp only [code, hl.functions_length]
    exact ((expands_code left hl next).append (expands_code right hr _)).append
      (expands_emit _ _ rfl)
  | .argument _ _ value, _, .argument _ h, next => expands_code value h next
  | .call _ callee args, _, .call hc ha, next => by
    simp only [code, Defers.functionsOfAll_length ha, Defers.keywords ha, ← ha.length_eq]
    exact ((expands_codeOfAll args ha next).append (expands_code callee hc _)).append
      (expands_emit _ _ rfl)
  | .call _ callee args, _, .deferred hc ha, next => by
    simp only [code, Defers.functionsOfAll_length ha, Defers.keywords ha, ← ha.length_eq,
      List.append_assoc]
    exact (expands_codeOfAll args ha next).append
      ((expands_code callee hc _).append (.deferred rfl rfl rfl))
  | .async _ inner, _, .async hi hcall, next => by
    have hinner := expands_code inner hi next
    cases inner with
    | call _ callee args =>
      cases hi with
      | call hc ha =>
        simp only [code, Defers.functionsOfAll_length ha, Defers.keywords ha, ← ha.length_eq]
        exact ((expands_codeOfAll args ha next).append (expands_code callee hc _)).append
          (expands_emit _ _ rfl)
      | deferred => cases hcall
    | _ =>
      cases hi
      exact hinner
  | .await _ inner, _, .await h, next => (expands_code inner h next).append (expands_emit _ _ rfl)
  | .conditional _ condition consequence alternative, _, .conditional hc hk ha, next => by
    simp only [code, hc.functions_length, Defers.functionsOfElse_length ha]
    rw [List.append_assoc, List.append_assoc, List.append_assoc, List.append_assoc,
      List.append_assoc, List.append_assoc]
    refine (expands_code condition hc next).append ?_
    rw [← List.append_assoc, ← List.append_assoc, ← List.append_assoc, ← List.append_assoc]
    exact .branch rfl rfl rfl rfl (expands_codeOfElse alternative ha _ (expands_emit _ _ rfl))
      (expands_code consequence hk _)
  | .block _ items, _, .block h, next => by
    cases h with
    | nil => exact expands_emit _ _ rfl
    | @cons first first' rest rest' hf hr =>
      simp only [code, hf.functions_length]
      exact (expands_code first hf next).append (expands_codeOfRest rest hr _)
termination_by structural e => e

theorem expands_codeOfAll : (es : List Expr) → {es' : List Expr} → Forall₂ Defers es es' →
    (next : Nat) → Expands (codeOfAll next es) (codeOfAll next es')
  | [], _, .nil, _ => .nil
  | e :: rest, _, .cons he ht, next => by
    simp only [codeOfAll, he.functions_length]
    exact (expands_code e he next).append (expands_codeOfAll rest ht _)
termination_by structural es => es

theorem expands_codeOfRest : (es : List Expr) → {es' : List Expr} → Forall₂ Defers es es' →
    (next : Nat) → Expands (codeOfRest next es) (codeOfRest next es')
  | [], _, .nil, _ => .nil
  | e :: rest, _, .cons he ht, next => by
    simp only [codeOfRest, he.functions_length]
    exact ((expands_emit _ _ rfl).append (expands_code e he next)).append
      (expands_codeOfRest rest ht _)
termination_by structural es => es

theorem expands_codeOfElse : (o : Option Expr) → {o' : Option Expr} → Option.Rel Defers o o' →
    (next : Nat) → {missing missing' : Instruction} → Expands [missing] [missing'] →
    Expands (codeOfElse next missing o) (codeOfElse next missing' o')
  | none, _, .none, _, _, _, h => h
  | some e, _, .some he, next, _, _, _ => expands_code e he next
termination_by structural o => o

end

/-- The code of functions whose bodies differ in that. -/
theorem expands_function {f g : Function} (h : f.Like Defers g) (next : Nat) :
    Expands (f.code next) (g.code next) := by
  simp only [Function.code, h.itself, h.name]
  refine (Expands.append ?_ (expands_code f.body h.body next)).append (expands_emit _ _ rfl)
  cases f.itself with
  | none => exact .nil
  | some name =>
    exact (expands_emit _ _ rfl).append ((expands_emit _ _ rfl).append (expands_emit _ _ rfl))

theorem expands_region {r s : Region} (h : r.Like Defers s) : Expands r.code s.code := by
  rw [Region.code, Region.code, h.next]
  exact expands_function h.function r.next

/-! ## Programs -/

theorem sameRoot_of_defers {e e' : Expr} (h : Defers e e') : SameRoot Defers e e' := by
  cases h with
  | definition h => exact .inr ⟨_, _, rfl, rfl, rfl, rfl, rfl, rfl, h⟩
  | _ => exact .inl ⟨rfl, rfl⟩

end Expr

open Teal.Expr (Defers)

theorem Function.fault?_of_like {f g : Function} (h : f.Like Defers g) (hf : f.fault? = none) :
    g.fault? = none := by
  have hregions := Expr.hereditary_defers.regions h 0
  unfold Function.fault? at hf ⊢
  generalize f.regions 0 = rs, g.regions 0 = ss at hregions hf
  induction hregions with
  | nil => rfl
  | cons hd _ ih =>
    rw [List.findSome?_cons] at hf ⊢
    split at hf
    · cases hf
    · next hfault =>
      rw [Expr.fault?_defers _ hd.function.body hfault]
      exact ih hf

theorem programError?_of_defers {p q : List Expr} (h : Forall₂ Defers p q) {seen : List String}
    (hp : programError? seen p = none) : programError? seen q = none := by
  induction h generalizing seen with
  | nil => rfl
  | @cons e e' _ _ hd _ ih =>
    rcases Expr.sameRoot_of_defers hd with ⟨he, -⟩ | ⟨f, g, he, he', like⟩
    · simp [programError?, he] at hp
    · simp only [programError?, he, he', like.name] at hp ⊢
      split at hp
      · cases hp
      · next hseen =>
        rw [Option.or_eq_none_iff] at hp
        rw [if_neg hseen, Option.or_eq_none_iff]
        exact ⟨Function.fault?_of_like like hp.1, ih hp.2⟩

/-- A program stays one when some of its calls are replaced by tasks, and its code is expanded. -/
theorem exists_compile_of_defers {p q : List Expr} (h : Forall₂ Defers p q) {exe : Executable}
    (hp : compile p = .ok exe) : ∃ exe' φ, compile q = .ok exe' ∧ exe.Expands φ exe' := by
  unfold compile at hp
  split at hp
  · cases hp
  · next herror =>
    cases hp
    have hroots := Expr.SameRoot.filterMap (h.imp fun _ _ => Expr.sameRoot_of_defers)
    obtain ⟨φ, hφ⟩ := Executable.expands_link (fun r s => Expr.expands_region)
      (Expr.hereditary_defers.regionsFrom 0 hroots)
    exact ⟨_, φ, by simp only [compile, programError?_of_defers h herror], hφ⟩

end Teal
