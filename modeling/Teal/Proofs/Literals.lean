import Teal.Expr.Parser
import Teal.Proofs.Scopes
import Teal.Proofs.Validity

/-!
# Literals of collections

The literal of a list or of a hash is a call by name, so it is the name that decides what becomes of
its elements. Where the name stands for the builtin, the literal builds its collection and nothing
else happens; where a binding or a function of the program hides the builtin, the literal calls what
hides it. Names are hidden by what a program says only: a name that no definition, no parameter and
no assignment of a program has is never hidden in its runs.

## Main definitions

* `Collection`: a literal, with the call that it is read as and the value that it is written for.
* `Expr.Binds`, `Expr.Spares`: an expression binds a name, or leaves it alone altogether.
* `Session.Builds`: a session goes on with the collection in place of the elements.

## Main statements

* `Session.builds_iff`: a literal builds a collection if its name stands for the builtin.
* `Executable.keeps_of_spares`: names that are spared stay unbound.
* `Scheduler.collections_built`: the literals in every run of a compiled program.
-/

namespace Teal

/-! ## Literals -/

inductive Collection
  | list (items : List Expr)
  | hash (pairs : List (Expr × Expr))

namespace Collection

def builtin : Collection → Builtin
  | .list _ => .list
  | .hash _ => .hash

def name : Collection → String
  | .list _ => "list"
  | .hash _ => "hash"

def elements : Collection → List Expr
  | .list items => items
  | .hash pairs => pairs.flatMap fun (key, value) => [key, value]

/-- What a literal is read as. -/
def expr (loc : Location) (l : Collection) : Expr :=
  .callNamed loc l.name (l.elements.map .positional)

def elementsCode (next : Nat) (l : Collection) : List Instruction :=
  Expr.codeOfAll next (l.elements.map .positional)

def build (l : Collection) (values : List Value) : Value :=
  match l with
  | .list _ => .list values
  | .hash _ => .hash (Value.hashOf values)

theorem ofName?_name (l : Collection) : Builtin.ofName? l.name = some l.builtin := by
  cases l <;> rfl

theorem invoke_builtin {l : Collection} {values : List Value}
    (h : values.length = l.elements.length) :
    l.builtin.invoke values = .ok (l.build values, []) := by
  cases l with
  | list items => rfl
  | hash pairs =>
    have heven : values.length % 2 = 0 := by
      rw [h]
      simp [elements, List.length_flatMap]
    simp [builtin, Builtin.invoke, build, heven]

/-- A builtin is called without keywords as it is invoked. -/
theorem call_of_null (name : String) (b : Builtin) (values : List Value) :
    b.call name values (values.map fun _ => .null) = b.invoke values := by
  have hnull : (values.map fun _ => Value.null).findSome? Value.text? = none := by
    simp [Value.text?]
  simp only [Builtin.call, rejectKeywords, hnull]
  rfl

/-- No other builtin gives the collection of a literal and prints nothing. -/
theorem eq_builtin {l : Collection} {b : Builtin} {values : List Value} {lines : List String}
    (hprints : b.prints values = []) (h : b.invoke values = .ok (l.build values, lines)) :
    b = l.builtin := by
  cases b with
  | print => cases hprints
  | list =>
    cases l with
    | list => rfl
    | hash => cases h
  | hash =>
    simp only [Builtin.invoke] at h
    split at h
    · cases l with
      | list => cases h
      | hash => rfl
    · cases h

/-- The code of a literal is that of its elements, its name and a call. -/
theorem code_expr (l : Collection) (loc : Location) (next : Nat) :
    ∃ push call : List String, (l.expr loc).code next = l.elementsCode next ++
      [⟨.pushBinding l.name, push⟩,
        ⟨.call l.elements.length (l.elements.map fun _ => .null), call⟩] := by
  refine ⟨(Expr.ident loc l.name).trace, (l.expr loc).trace, ?_⟩
  simp [expr, Expr.callNamed, Expr.code, elementsCode, Expr.emit, Function.comp_def,
    Expr.positional, Expr.keyword]

end Collection

namespace Parser

variable (ctx : Context) (operand : Reader Expr) (token : Token) (tokens : List Token)

/-- What is read between brackets are the elements of a list. -/
theorem listLiteral_eq : listLiteral ctx operand token tokens =
    (delimited ctx .rightBracket "`,` or `]`" (fun _ => expression ctx operand) tokens).map
      fun (items, rest) => ((Collection.list items).expr (ctx.loc token), rest) := by
  unfold listLiteral
  rcases delimited ctx .rightBracket _ _ tokens with e | ⟨items, rest⟩ <;> rfl

/-- What is read between braces are the elements of a hash. -/
theorem hashLiteral_eq : hashLiteral ctx operand token tokens =
    (delimited ctx .rightBrace "`,` or `\x7d`" (fun _ => pair ctx operand) tokens).map
      fun (pairs, rest) => ((Collection.hash pairs).expr (ctx.loc token), rest) := by
  unfold hashLiteral
  rcases delimited ctx .rightBrace _ _ tokens with e | ⟨pairs, rest⟩
  · rfl
  · simp [Except.map, bind, Except.bind, Collection.expr, Collection.elements, Collection.name,
      List.map_flatMap]

end Parser

/-! ## Names that a program binds -/

namespace Expr

/-- An expression binds a name: it defines a function of that name, has it as a parameter or assigns
to it. -/
def Binds (name : String) : Expr → Prop
  | .definition _ itself params _ _ => itself = name ∨ name ∈ params
  | .lambda _ params _ => name ∈ params
  | .binary _ .assign (.ident _ target) _ => target = name
  | _ => False

/-- Nothing that is compiled with an expression binds a name. -/
def Spares (name : String) (e : Expr) : Prop :=
  ∀ node : Expr, node.Compiled e → ¬ node.Binds name

variable {name : String} {e : Expr}

theorem spares_iff :
    e.Spares name ↔ ¬ e.Binds name ∧ ∀ part ∈ e.compiledParts, part.Spares name :=
  forall_compiled_iff

theorem Spares.part {part : Expr} (h : e.Spares name) (hpart : part ∈ e.compiledParts) :
    part.Spares name :=
  (spares_iff.mp h).2 part hpart

theorem Spares.compiled {part : Expr} (h : e.Spares name) (hpart : part.Compiled e) :
    part.Spares name :=
  fun node hnode => h node (hnode.trans hpart)

def Leaves (name : String) (i : Instruction) : Prop :=
  i.op ≠ .bind name

/-- The code of an expression that spares a name does not bind it. Assignments to what is no name
bind the empty name. -/
theorem Spares.code (h : e.Spares name) (hname : name ≠ "") (next : Nat) :
    ∀ i ∈ e.code next, Leaves name i := by
  induction e generalizing next with
  | literal | symbol | ident | lambda => simp [Expr.code, Leaves, emit]
  | definition loc itself params body tag =>
    have hself : itself ≠ name := fun heq => h _ .self (.inl heq)
    simp [Expr.code, Leaves, emit, hself]
  | argument loc keyword value _ ih =>
    simpa only [Expr.code] using ih (h.part (List.mem_singleton_self _)) next
  | binary loc op left right ihLeft ihRight =>
    have hleft : left.Spares name := h.part (by simp [compiledParts, standingParts, parts])
    have hright : right.Spares name := h.part (by simp [compiledParts, standingParts, parts])
    cases op with
    | assign =>
      simp only [Expr.code, List.forall_mem_append]
      refine ⟨ihRight hright next, ?_⟩
      cases left with
      | ident loc' target =>
        have htarget : target ≠ name := h _ .self
        simp [Leaves, emit, htarget]
      | _ => simp [Leaves, emit, Ne.symm hname]
    | calculate op =>
      simp only [Expr.code, List.forall_mem_append]
      exact ⟨⟨ihLeft hleft next, ihRight hright _⟩, by simp [Leaves, emit]⟩
  | call loc callee args ihCallee ihArgs =>
    have hargs (a : Expr) (ha : a ∈ args) : a.Spares name :=
      h.part (by simp [compiledParts, arguments, ha])
    simp only [Expr.code, List.forall_mem_append]
    exact ⟨⟨forall_codeOfAll (fun a ha => ihArgs a ha (hargs a ha)) next,
      ihCallee (h.part (by simp [compiledParts, standingParts])) _⟩, by simp [Leaves, emit]⟩
  | async loc inner ih =>
    have hinner : inner.Spares name := h.part (by simp [compiledParts, standingParts, parts])
    cases inner with
    | call loc' callee args =>
      have hcall := ih hinner next
      simp only [Expr.code, List.forall_mem_append] at hcall ⊢
      exact ⟨hcall.1, by simp [Leaves, emit]⟩
    | _ => exact ih hinner next
  | await loc inner ih =>
    have hinner : inner.Spares name := h.part (by simp [compiledParts, standingParts, parts])
    simp only [Expr.code, List.forall_mem_append]
    exact ⟨ih hinner next, by simp [Leaves, emit]⟩
  | conditional loc condition consequence alternative ihCondition ihConsequence ihAlternative =>
    have branch {e : Expr} (he : e ∈ condition :: consequence :: alternative.toList) :
        e.Spares name := h.part (List.mem_append_left _ he)
    have otherwise (next : Nat) (self : Expr) :
        ∀ i ∈ codeOfElse next (self.emit (.pushValue .null)) alternative, Leaves name i := by
      cases alternative with
      | none => simp [codeOfElse, Leaves, emit]
      | some e => exact ihAlternative e rfl (branch (by simp)) next
    simp only [Expr.code, List.forall_mem_append]
    exact ⟨⟨⟨⟨ihCondition (branch (by simp)) next, by simp [Leaves, emit]⟩, otherwise _ _⟩,
      by simp [Leaves, emit]⟩, ihConsequence (branch (by simp)) _⟩
  | block loc items ih =>
    have hitems (e : Expr) (he : e ∈ items) : e.Spares name :=
      h.part (by simp [compiledParts, standingParts, parts, he])
    cases items with
    | nil => simp [Expr.code, Leaves, emit]
    | cons first rest =>
      simp only [Expr.code, List.forall_mem_append]
      exact ⟨ih first (by simp) (hitems first (by simp)) next,
        forall_codeOfRest (by simp [Leaves, emit])
          (fun a ha => ih a (by simp [ha]) (hitems a (by simp [ha]))) _⟩

end Expr

/-- The names of builtins are not those that functions get by themselves. -/
theorem Builtin.plain_name {name : String} {b : Builtin} (h : Builtin.ofName? name = some b) :
    name ≠ "" ∧ name ≠ "lambda" ∧ ':' ∉ name.toList := by
  unfold Builtin.ofName? at h
  split at h
  · decide
  · decide
  · decide
  · cases h

section Program

variable {program : List Expr} {exe : Executable} {name : String} {b : Builtin}

/-- Every region is that of a function that is compiled with an expression of the program. -/
theorem exists_node_of_mem_numberedFunctions (h : programError? [] program = none) {r : Region}
    (hr : r ∈ numberedFunctions program) :
    ∃ (n : FunctionNode) (number : Option Nat), (∃ e ∈ program, n.expr.Compiled e) ∧
      r.function = n.compiled number := by
  obtain ⟨nodes, units, -, hregions, hlabels, hnodes, -⟩ := exists_units_of_programError? h
  obtain ⟨u, hu, rfl⟩ := List.mem_map.mp (hregions ▸ hr)
  have hnode : u.node ∈ program.flatMap Expr.functionNodes :=
    ((CodeUnit.perm_nodes hlabels).trans hnodes).mem_iff.mp (List.mem_map_of_mem hu)
  obtain ⟨e, he, hn⟩ := List.mem_flatMap.mp hnode
  exact ⟨u.node, u.number, ⟨e, he, Expr.compiled_of_mem_functionNodes hn⟩, rfl⟩

structure Function.Spares (name : String) (f : Function) : Prop where
  own : f.name ≠ name
  params : name ∉ f.params
  itself : f.itself ≠ some name
  body : f.body.Spares name

theorem Function.spares_compiled {n : FunctionNode} (hname : Builtin.ofName? name = some b)
    (h : n.expr.Spares name) (number : Option Nat) : (n.compiled number).Spares name := by
  obtain ⟨-, hlambda, hcolon⟩ := Builtin.plain_name hname
  have hbody : n.function.body.Spares name :=
    h.part (by rw [Expr.compiledParts_expr]; exact List.mem_singleton_self _)
  have hself : ¬ n.expr.Binds name := h _ .self
  have hparams : name ∉ n.function.params ∧ n.function.itself ≠ some name ∧
      n.function.name ≠ name := by
    cases n with
    | definition loc itself params body tag =>
      simp only [FunctionNode.expr, Expr.Binds, not_or] at hself
      exact ⟨hself.2, by simpa [FunctionNode.function] using hself.1, hself.1⟩
    | lambda loc params body => exact ⟨hself, by simp [FunctionNode.function], hlambda.symm⟩
  cases number with
  | none => exact ⟨hparams.2.2, hparams.1, by simp [FunctionNode.compiled], hbody⟩
  | some k =>
    refine ⟨fun heq => hcolon ?_, hparams.1, hparams.2.1, hbody⟩
    -- a function inside another has a colon in its name
    rw [← heq]
    simp [FunctionNode.compiled, Function.numbered]

theorem Function.spares_of_mem (hcompile : compile program = .ok exe)
    (hname : Builtin.ofName? name = some b) (h : ∀ e ∈ program, e.Spares name) {r : Region}
    (hr : r ∈ numberedFunctions program) : r.function.Spares name := by
  obtain ⟨hfault, -⟩ := programError?_of_compile hcompile
  obtain ⟨n, number, ⟨e, he, hn⟩, heq⟩ := exists_node_of_mem_numberedFunctions hfault hr
  exact heq ▸ spares_compiled hname ((h e he).compiled hn) number

theorem Function.Spares.code {f : Function} (h : f.Spares name) (hname : name ≠ "") (next : Nat) :
    ∀ i ∈ f.code next, Expr.Leaves name i := by
  intro i hi
  simp only [Function.code, List.mem_append] at hi
  rcases hi with (hi | hi) | hi
  · split at hi
    · next itself hitself =>
      have hne : itself ≠ name := fun heq => h.itself (hitself.trans (congrArg some heq))
      simp only [List.mem_cons, List.not_mem_nil, or_false] at hi
      rcases hi with rfl | rfl | rfl <;> simp [Expr.Leaves, Expr.emit, hne]
    · cases hi
  · exact h.body.code hname next i hi
  · obtain rfl := List.mem_singleton.mp hi
    simp [Expr.Leaves, Expr.emit]

/-- A program that spares the name of a builtin has no function of that name. -/
theorem Executable.function?_of_spares (hcompile : compile program = .ok exe)
    (hname : Builtin.ofName? name = some b) (h : ∀ e ∈ program, e.Spares name) :
    exe.function? name = none := by
  obtain ⟨-, heq⟩ := programError?_of_compile hcompile
  cases hf : exe.function? name with
  | none => rfl
  | some info =>
    obtain ⟨before, r, after, hsplit, hr, -⟩ := exists_region (heq ▸ hf)
    exact absurd hr.symm (Function.spares_of_mem hcompile hname h (hsplit ▸ by simp)).own

/-- The code of a program that spares the name of a builtin leaves it unbound. -/
theorem Executable.keeps_of_spares (hcompile : compile program = .ok exe)
    (hname : Builtin.ofName? name = some b) (h : ∀ e ∈ program, e.Spares name) :
    exe.Keeps fun bindings => bindings.get? name = none := by
  obtain ⟨-, heq⟩ := programError?_of_compile hcompile
  have spares {r : Region} (hr : r ∈ numberedFunctions program) : r.function.Spares name :=
    Function.spares_of_mem hcompile hname h hr
  have other {bindings : Bindings} {bound : String} (v : Value) (hne : bound ≠ name)
      (hb : bindings.get? name = none) : (bindings.insert bound v).get? name = none := by
    rw [Table.get?_insert, if_neg hne, hb]
  refine ⟨rfl, fun {i bound bindings} v hi hop => other v fun hbound => ?_,
    fun {function bound info bindings} v hf hparam => other v fun hbound => ?_⟩
  · subst heq hbound
    obtain ⟨r, hr, hi⟩ := List.mem_flatMap.mp hi
    exact (spares hr).code (Builtin.plain_name hname).1 r.next i hi hop
  · subst hbound
    obtain ⟨before, r, after, hsplit, -, rfl⟩ := exists_region (heq ▸ hf)
    exact (spares (hsplit ▸ by simp)).params hparam

end Program

/-! ## Literals in a session -/

/-- A session goes on with a collection in place of the values of its elements, which were on top of
the stack, and does nothing else. -/
def Session.Builds (exe : Executable) (l : Collection) (values rest : List Value) (s : Session) :
    Prop :=
  Leads exe 2 s (s.advance.advance.withStack (l.build values :: rest))

section Sessions

variable {exe : Executable} {height : Nat → Nat} {l : Collection} {loc : Location} {ip next : Nat}
  {s t : Session} {callee : Value} {values rest : List Value}

/-- At the end of the elements their values are on top of the stack. -/
theorem Session.Above.elements (balanced : exe.Balanced height) (above : s.Above exe height {})
    (hcode : exe.Has ip ((l.expr loc).code next))
    (hip : s.ip = ip + (l.elementsCode next).length) :
    ∃ values rest : List Value, values.length = l.elements.length ∧
      s.stack = values.reverse ++ rest := by
  obtain ⟨push, call, heq⟩ := l.code_expr loc next
  have hend := (heq ▸ hcode).right
  rw [← hip] at hend
  obtain ⟨target, htarget, -, hheight⟩ :=
    (balanced.fits hend.first).next (List.mem_singleton_self _)
  have hcall := (balanced.fits hend.tail.first).enough
  obtain rfl : target = s.ip + 1 := by omega
  obtain ⟨-, activations, own, lower, -, hstack, hlength, -⟩ := above
  simp only [Op.pops, Op.pushes, Int.toNat_natCast] at hheight hcall
  have henough : l.elements.length ≤ s.stack.length := by
    rw [hstack, List.length_append]
    omega
  refine ⟨(s.stack.take l.elements.length).reverse, s.stack.drop l.elements.length, ?_, ?_⟩
  · rw [List.length_reverse, List.length_take, Nat.min_eq_left henough]
  · rw [List.reverse_reverse, List.take_append_drop]

/-- The name of a literal always stands for something. -/
theorem exists_lookup_name (exe : Executable) (l : Collection) (s : Session) :
    ∃ callee, lookup exe s l.name = .ok callee := by
  unfold lookup
  split
  · exact ⟨_, rfl⟩
  · exact ⟨_, if_pos (by simp [l.ofName?_name])⟩

/-- After the elements, a literal looks up its name and calls what it finds. -/
theorem request_literal (hcode : exe.Has ip ((l.expr loc).code next))
    (hip : s.ip = ip + (l.elementsCode next).length) (hlength : values.length = l.elements.length)
    (hstack : s.stack = values.reverse ++ rest) (hcallee : lookup exe s l.name = .ok callee)
    (ht : t = s.advance.withStack (callee :: s.stack)) :
    request exe s = .goOn t [] ∧
      request exe t = Request.ofCall exe t ⟨callee, values, rest⟩ (values.map fun _ => .null) := by
  obtain ⟨push, call, heq⟩ := l.code_expr loc next
  have hend := (heq ▸ hcode).right
  rw [← hip] at hend
  subst ht
  constructor
  · rw [request_of_instruction hend.first]
    simp only [Request.ofOp, execute, hcallee]
    rfl
  · have htake : takeCall l.elements.length (callee :: s.stack) = .ok ⟨callee, values, rest⟩ := by
      have hneg : ¬ (values.length : Int) < 0 := by omega
      have hle : ¬ values.length + rest.length < values.length := by omega
      simp [takeCall, hneg, hle, hstack, ← hlength]
    have hkeywords : (l.elements.map fun _ => Value.null) = values.map fun _ => Value.null := by
      simp [List.map_const', hlength]
    rw [request_of_instruction (s := s.advance.withStack _) hend.tail.first]
    simp only [Request.ofOp, Session.withStack, htake, hkeywords]

/-- A literal builds its collection if its name stands for its builtin, and not otherwise. -/
theorem Session.builds_iff (hcode : exe.Has ip ((l.expr loc).code next))
    (hip : s.ip = ip + (l.elementsCode next).length) (hlength : values.length = l.elements.length)
    (hstack : s.stack = values.reverse ++ rest) (hcallee : lookup exe s l.name = .ok callee) :
    s.Builds exe l values rest ↔
      ∃ name, Callee.resolve exe callee = .ok (.builtin name l.builtin) := by
  obtain ⟨hpush, hcall⟩ := request_literal hcode hip hlength hstack hcallee rfl
  have hsteps : s.Builds exe l values rest ↔ ∃ u prints,
      Request.ofCall exe (s.advance.withStack (callee :: s.stack)) ⟨callee, values, rest⟩
        (values.map fun _ => .null) = .goOn u prints ∧
      s.advance.advance.withStack (l.build values :: rest) = u.print prints := by
    refine (Leads.succ_iff (m := 1)).trans ?_
    simp [hpush, Leads.succ_iff, Leads.zero_iff, hcall]
  rw [hsteps]
  constructor
  · rintro ⟨u, prints, hr, heq⟩
    simp only [Request.ofCall] at hr
    split at hr
    · cases hr
    · -- a function of the program would have an activation of its own
      split at hr <;> cases hr
      have hlen := congrArg (fun s => s.activations.length) heq
      simp [Session.print, Session.advance, Session.withStack] at hlen
    · next name b hres =>
      split at hr
      · cases hr
      · next v lines hbuiltin =>
        cases hr
        have hv : l.build values = v := by
          have := congrArg (fun s => s.stack) heq
          simpa [Session.print, Session.push, Session.advance, Session.withStack] using this
        have hprints : b.prints values = [] := by
          have := congrArg (fun s => s.output) heq
          simpa [Session.print, Session.push, Session.advance, Session.withStack] using this
        rw [Collection.call_of_null, ← hv] at hbuiltin
        exact ⟨name, hres.trans (by rw [Collection.eq_builtin hprints hbuiltin])⟩
  · rintro ⟨name, hres⟩
    have hprints : l.builtin.prints values = [] := by cases l <;> rfl
    refine ⟨_, _, ?_, (Session.print_nil _).symm⟩
    simp only [Request.ofCall, hres, Collection.call_of_null, Collection.invoke_builtin hlength,
      hprints]
    rfl

end Sessions

/-! ## Literals in a run -/

/-- Where the name of a literal is not hidden, it stands for the builtin. -/
theorem resolve_name {exe : Executable} {l : Collection} {s : Session}
    (hbound : ∀ b, s.bindings? = some b → b.get? l.name = none)
    (hfunction : exe.function? l.name = none) :
    lookup exe s l.name = .ok (.function l.name) ∧
      Callee.resolve exe (.function l.name) = .ok (.builtin l.name l.builtin) := by
  have hnone : s.bindings?.bind (·.get? l.name) = none := by
    cases hb : s.bindings? with
    | none => rfl
    | some b => exact hbound b hb
  exact ⟨by simp [lookup, hnone, l.ofName?_name],
    by simp [Callee.resolve, hfunction, l.ofName?_name]⟩

namespace Scheduler

variable {program : List Expr} {exe : Executable} {settings : MachineSettings} {entry : String}
  {args : List Value} {c : Scheduler} {id x : TaskId} {l : Collection} {loc : Location}
  {ip next n : Nat} {s : Session}

/-- The activations of a session account for its whole stack, at every instruction of a run. -/
theorem above_of_history {height : Nat → Nat} (balanced : exe.Balanced height)
    (h : start { executable := exe, settings } entry args = .ok (id, c))
    (hs : s ∈ c.history x n) : s.Above exe height {} := by
  obtain ⟨hexe, uniform⟩ : c.executable = exe ∧ c.Uniform (Session.Tidy exe height) :=
    run_all (Session.Tidy.invariant balanced) h
      (fun info bindings hf => .entered (balanced.entry hf).1 (balanced.entry hf).2 rfl 0) 0
  obtain ⟨tidy, hrun⟩ := history_all (hexe.symm ▸ Session.Tidy.invariant balanced) uniform hs
  exact tidy.above (Session.isOver_of_running hrun)

/-- In a run of a program that spares the name of a literal, it is not hidden. -/
theorem bindings?_of_spares (hcompile : compile program = .ok exe)
    (hspares : ∀ e ∈ program, e.Spares l.name)
    (hargs : ∀ name captured, Value.Within (.closure name captured) args →
      Table.get? captured l.name = none)
    (h : start { executable := exe, settings } entry args = .ok (id, c))
    (hs : s ∈ c.history x n) {b : Bindings} (hb : s.bindings? = some b) :
    b.get? l.name = none := by
  obtain ⟨height, balanced⟩ := Executable.exists_balanced hcompile
  have constants (name : String) (captured : List (String × Value))
      (hm : exe.Mentions (.closure name captured)) : Table.get? captured l.name = none :=
    absurd (balanced.isReference_of_mentions hm) (by simp [Value.isReference])
  have all := allBindings_of_history
    (Executable.keeps_of_spares hcompile l.ofName?_name hspares) constants hargs h hs
  obtain ⟨a, ha, rfl⟩ := Option.map_eq_some_iff.mp hb
  exact all a (List.mem_of_mem_head? ha)

/-- When the elements of a literal have been evaluated, in whatever session of a run, their values
are on top of the stack. Then the literal builds its collection, in place of these values, if its
name stands for the builtin of that name, and not otherwise. In a program in which nothing has the
name that the literal calls, neither a definition nor a parameter nor what is assigned to, it always
does. -/
theorem collections_built (hcompile : compile program = .ok exe)
    (h : start { executable := exe, settings } entry args = .ok (id, c))
    (hcode : exe.Has ip ((l.expr loc).code next)) (hs : s ∈ c.history x n)
    (hip : s.ip = ip + (l.elementsCode next).length) :
    ∃ (values rest : List Value) (callee : Value), values.length = l.elements.length ∧
      s.stack = values.reverse ++ rest ∧ lookup exe s l.name = .ok callee ∧
      (s.Builds exe l values rest ↔
        ∃ name, Callee.resolve exe callee = .ok (.builtin name l.builtin)) ∧
      ((∀ e ∈ program, e.Spares l.name) →
        (∀ name captured, Value.Within (.closure name captured) args →
          Table.get? captured l.name = none) →
        s.Builds exe l values rest) := by
  obtain ⟨height, balanced⟩ := Executable.exists_balanced hcompile
  obtain ⟨values, rest, hlength, hstack⟩ :=
    (above_of_history balanced h hs).elements balanced hcode hip
  obtain ⟨callee, hcallee⟩ := exists_lookup_name exe l s
  have hbuilds := Session.builds_iff hcode hip hlength hstack hcallee
  refine ⟨values, rest, callee, hlength, hstack, hcallee, hbuilds, fun hspares hargs => ?_⟩
  obtain ⟨hlookup, hresolve⟩ := resolve_name
    (fun b hb => bindings?_of_spares hcompile hspares hargs h hs hb)
    (Executable.function?_of_spares hcompile l.ofName?_name hspares)
  obtain rfl : callee = .function l.name := Except.ok.inj (hcallee.symm.trans hlookup)
  exact hbuilds.mpr ⟨l.name, hresolve⟩

def pairing : List Expr :=
  let loc : Location := ⟨"", 1, 1, ""⟩
  [.definition loc "main" [] ((Collection.list [.literal loc (.integer 1),
    .literal loc (.integer 2)]).expr loc) none]

theorem spares_pairing : ∀ e ∈ pairing, e.Spares "list" := by
  have leaf {e : Expr} (hself : ¬ e.Binds "list") (hparts : e.compiledParts = []) :
      e.Spares "list" := Expr.spares_iff.mpr ⟨hself, by simp [hparts]⟩
  refine List.forall_mem_singleton.mpr (Expr.spares_iff.mpr ⟨by simp [Expr.Binds], ?_⟩)
  refine List.forall_mem_singleton.mpr (Expr.spares_iff.mpr ⟨id, ?_⟩)
  refine List.forall_mem_cons.mpr ⟨leaf id rfl, List.forall_mem_cons.mpr ⟨?_,
    List.forall_mem_singleton.mpr ?_⟩⟩
  · exact Expr.spares_iff.mpr ⟨id, List.forall_mem_singleton.mpr (leaf id rfl)⟩
  · exact Expr.spares_iff.mpr ⟨id, List.forall_mem_singleton.mpr (leaf id rfl)⟩

/-- Nothing in `pairing` is called `list`, so its literal builds the list of its elements. -/
theorem collections_built_pairing : ∃ exe c s l, compile pairing = .ok exe ∧
    start { executable := exe, settings := {} } "main" [] = .ok (0, c) ∧
    (c.history 0 1)[2]? = some s ∧ s.stack = [.integer 2, .integer 1] ∧
    l = Collection.list [.literal ⟨"", 1, 1, ""⟩ (.integer 1),
      .literal ⟨"", 1, 1, ""⟩ (.integer 2)] ∧
    s.Builds exe l [.integer 1, .integer 2] [] := by
  let l := Collection.list [.literal ⟨"", 1, 1, ""⟩ (.integer 1),
    .literal ⟨"", 1, 1, ""⟩ (.integer 2)]
  obtain ⟨exe, c, s, hcompile, h, hs, hip, hstack, hcode⟩ : ∃ exe c s,
      compile pairing = .ok exe ∧
      start { executable := exe, settings := {} } "main" [] = .ok (0, c) ∧
      (c.history 0 1)[2]? = some s ∧ s.ip = 2 ∧ s.stack = [.integer 2, .integer 1] ∧
      exe.code.take 4 = (l.expr ⟨"", 1, 1, ""⟩).code 0 := ⟨_, _, _, rfl, rfl, rfl, rfl, rfl, rfl⟩
  have hhas : exe.Has 0 ((l.expr ⟨"", 1, 1, ""⟩).code 0) := by
    intro k i hk
    rw [← hcode, List.getElem?_take] at hk
    split at hk
    · rw [Nat.zero_add]
      exact hk
    · cases hk
  obtain ⟨values, rest, callee, hlength, hvalues, -, -, builds⟩ :=
    collections_built hcompile h hhas (List.mem_of_getElem? hs) (by rw [hip]; rfl)
  obtain ⟨hreverse, rfl⟩ : values.reverse = [.integer 2, .integer 1] ∧ rest = [] :=
    List.append_inj (hvalues.symm.trans hstack) (by rw [List.length_reverse, hlength]; rfl)
  obtain rfl : values = [.integer 1, .integer 2] := List.reverse_eq_iff.mp hreverse
  exact ⟨exe, c, s, l, hcompile, h, hs, hstack, rfl, builds spares_pairing (by simp)⟩

end Scheduler

end Teal
