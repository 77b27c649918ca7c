import Teal.Proofs.Deadlock
import Teal.Proofs.Evaluator
import Teal.Proofs.Itemwise

/-!
# Code does what expressions mean

A session that runs the code of an expression comes, after some steps, to the end of the code with
the value of the expression on top of its stack; or it fails with the error that the evaluation
raises; or it runs for at least as many steps as the evaluation had fuel. The three are kept
together, so that they compose like evaluations do.

## Main definitions

* `Leads`: steps of a session that starts no tasks and waits for none.
* `Answer.Realized`: a session does what an evaluation does.
* `Frame.at`: a session in an activation.
* `Executable.Links`: functions have their code in a program.

## Main statements

* `Evaluator.means`: the code of an expression.
* `Evaluator.applies_applyWith`: calls of functions and builtins.
-/

namespace Teal

/-- A number of steps of a session that starts no tasks and waits for none. -/
inductive Leads (exe : Executable) : Nat → Session → Session → Prop
  | refl (s : Session) : Leads exe 0 s s
  | head {m : Nat} {s t u : Session} {prints : List (List Value)} :
      request exe s = .goOn t prints → Leads exe m (t.print prints) u → Leads exe (m + 1) s u

def Session.Plain (s : Session) : Prop :=
  ∀ t, ¬ s.Holds (.future t)

namespace Leads

variable {exe : Executable} {m n : Nat} {s t u : Session}

theorem trans (h : Leads exe m s t) (h' : Leads exe n t u) : Leads exe (m + n) s u := by
  induction h with
  | refl s => simpa using h'
  | head hr _ ih => exact Nat.succ_add _ _ ▸ .head hr (ih h')

theorem split (h : Leads exe (m + n) s u) : ∃ t, Leads exe m s t ∧ Leads exe n t u := by
  induction m generalizing s with
  | zero => exact ⟨s, .refl s, by simpa using h⟩
  | succ m ih =>
    rw [Nat.succ_add] at h
    cases h with
    | head hr h =>
      obtain ⟨t, first, second⟩ := ih h
      exact ⟨t, .head hr first, second⟩

theorem one (hr : request exe s = .goOn t []) : Leads exe 1 s t := by
  refine .head hr ?_
  rw [Session.print_nil]
  exact .refl t

theorem zero_iff : Leads exe 0 s t ↔ t = s := by
  constructor
  · rintro ⟨⟩
    rfl
  · rintro rfl
    exact .refl t

theorem succ_iff : Leads exe (m + 1) s u ↔
    ∃ t prints, request exe s = .goOn t prints ∧ Leads exe m (t.print prints) u := by
  constructor
  · intro h
    cases h with
    | head hr h => exact ⟨_, _, hr, h⟩
  · rintro ⟨t, prints, hr, h⟩
    exact .head hr h

theorem plain (hexe : exe.FutureFree) (h : Leads exe m s t) (hs : s.Plain) : t.Plain := by
  induction h with
  | refl s => exact hs
  | head hr _ ih =>
    refine ih fun u hu => hs u (Session.holds_of_request hexe ?_)
    rw [hr]
    exact .inl hu

end Leads

/-- A session does what an evaluation does, from `s` to what `finish` makes of its value. -/
def Answer.Realized (exe : Executable) (fuel : Nat) (s : Session) (finish : α → Scope → Session) :
    Answer α → Prop
  | .given a scope => ∃ m, Leads exe m s (finish a scope)
  | .raised e => ∃ m s' t, Leads exe m s s' ∧ request exe s' = .fail t e
  | .unknown => ∃ s', Leads exe fuel s s'

namespace Answer.Realized

variable {exe : Executable} {fuel : Nat} {s t : Session} {finish : α → Scope → Session}
  {r : Answer α}

theorem of_leads {m : Nat} (h : Leads exe m s t) (h' : r.Realized exe fuel t finish) :
    r.Realized exe fuel s finish := by
  cases r with
  | given a scope =>
    obtain ⟨n, hn⟩ := h'
    exact ⟨m + n, h.trans hn⟩
  | raised e =>
    obtain ⟨n, s', t', hn, hr⟩ := h'
    exact ⟨m + n, s', t', h.trans hn, hr⟩
  | unknown =>
    -- of all the steps, as many as there was fuel
    obtain ⟨s', hn⟩ := h'
    have hall := h.trans hn
    rw [Nat.add_comm] at hall
    obtain ⟨u, hu, -⟩ := hall.split
    exact ⟨u, hu⟩

theorem step (hr : request exe s = .goOn t []) (h : r.Realized exe fuel t finish) :
    r.Realized exe fuel s finish :=
  of_leads (.one hr) h

/-- A step that costs fuel. -/
theorem enter (hr : request exe s = .goOn t []) (h : r.Realized exe fuel t finish) :
    r.Realized exe (fuel + 1) s finish := by
  cases r with
  | given a scope => exact step hr h
  | raised e => exact step hr h
  | unknown =>
    obtain ⟨s', hn⟩ := h
    have hall := (Leads.one hr).trans hn
    rw [Nat.add_comm] at hall
    exact ⟨s', hall⟩

theorem given {a : α} {scope : Scope} (h : s = finish a scope) :
    (Answer.given a scope).Realized exe fuel s finish :=
  ⟨0, h ▸ .refl s⟩

theorem raised {e : MachineError} (hr : request exe s = .fail t e) :
    (Answer.raised e).Realized exe fuel s finish :=
  ⟨0, s, t, .refl s, hr⟩

/-- Evaluations one after the other, as a session does them. -/
theorem andThen (hexe : exe.FutureFree) (hs : s.Plain) {finish' : β → Scope → Session}
    {k : α → Scope → Answer β} (h : r.Realized exe fuel s finish)
    (hk : ∀ a scope, r = .given a scope → (finish a scope).Plain →
      (k a scope).Realized exe fuel (finish a scope) finish') :
    (r.andThen k).Realized exe fuel s finish' := by
  cases r with
  | given a scope =>
    obtain ⟨m, hm⟩ := h
    exact of_leads hm (hk a scope rfl (hm.plain hexe hs))
  | raised e => exact h
  | unknown => exact h

/-- One more step at the end. -/
theorem andStep (hexe : exe.FutureFree) (hs : s.Plain) {finish' : α → Scope → Session}
    (h : r.Realized exe fuel s finish)
    (hk : ∀ a scope, (finish a scope).Plain →
      request exe (finish a scope) = .goOn (finish' a scope) []) :
    r.Realized exe fuel s finish' := by
  cases r with
  | given a scope =>
    obtain ⟨m, hm⟩ := h
    exact ⟨m + 1, hm.trans (.one (hk a scope (hm.plain hexe hs)))⟩
  | raised e => exact h
  | unknown => exact h

theorem mono {finish' : α → Scope → Session} (h : r.Realized exe fuel s finish)
    (heq : ∀ a scope, finish a scope = finish' a scope) : r.Realized exe fuel s finish' := by
  rwa [← funext fun a => funext (heq a)]

end Answer.Realized

/-! ## Code in a program -/

namespace Executable

/-- A program has some code at a place. -/
def Has (exe : Executable) (ip : Nat) (code : List Instruction) : Prop :=
  ForallAt (fun place i => exe.instruction? place = some i) ip code

def Knows (exe : Executable) (next : Nat) (functions : List Function) : Prop :=
  ForallAt (fun number f => (exe.function? (Expr.closureName f.name number)).isSome) next functions

variable {exe : Executable} {ip next : Nat} {a b : List Instruction}

theorem Has.left (h : exe.Has ip (a ++ b)) : exe.Has ip a :=
  (forallAt_append.mp h).1

theorem Has.right (h : exe.Has ip (a ++ b)) : exe.Has (ip + a.length) b :=
  (forallAt_append.mp h).2

theorem Has.first {i : Instruction} (h : exe.Has ip (i :: a)) : exe.instruction? ip = some i :=
  (forallAt_cons.mp h).1

theorem Has.tail {i : Instruction} (h : exe.Has ip (i :: a)) : exe.Has (ip + 1) a :=
  (forallAt_cons.mp h).2

/-- Where an instruction follows, the code does not end. -/
theorem lt_of_instruction {i : Instruction} (h : exe.instruction? ip = some i) :
    ip < exe.code.length :=
  (List.getElem?_eq_some_iff.mp h).1

theorem Knows.left {fs gs : List Function} (h : exe.Knows next (fs ++ gs)) : exe.Knows next fs :=
  (forallAt_append.mp h).1

theorem Knows.right {fs gs : List Function} (h : exe.Knows next (fs ++ gs)) :
    exe.Knows (next + fs.length) gs :=
  (forallAt_append.mp h).2

end Executable

/-! ## Sessions in an activation -/

/-- All of a session but what the code of an expression changes. -/
structure Frame where
  id : TaskId
  status : Session.Status
  result : Option Value
  function : String
  returnIp : Option Nat
  callers : List Activation

def Frame.at (F : Frame) (ip : Nat) (stack : List Value) (scope : Scope) : Session where
  id := F.id
  ip := ip
  stack := stack
  activations := ⟨F.function, scope.bindings, F.returnIp⟩ :: F.callers
  status := F.status
  result := F.result
  output := scope.lines

section Requests

variable {exe : Executable} {F : Frame} {ip : Nat} {stack : List Value} {scope : Scope}
  {source : List String} {v : Value} {name : String} {offset : Int}

theorem request_of_instruction {s : Session} {op : Op}
    (hi : exe.instruction? s.ip = some ⟨op, source⟩) : request exe s = Request.ofOp exe s op := by
  simp [request, hi]

theorem request_pushValue (hi : exe.instruction? ip = some ⟨.pushValue v, source⟩) :
    request exe (F.at ip stack scope) = .goOn (F.at (ip + 1) (v :: stack) scope) [] := by
  rw [request_of_instruction hi]
  rfl

theorem request_bind (hi : exe.instruction? ip = some ⟨.bind name, source⟩) :
    request exe (F.at ip (v :: stack) scope) =
      .goOn (F.at (ip + 1) (v :: stack) (scope.bind name v)) [] := by
  rw [request_of_instruction hi]
  rfl

theorem request_pop (hi : exe.instruction? ip = some ⟨.pop, source⟩) :
    request exe (F.at ip (v :: stack) scope) = .goOn (F.at (ip + 1) stack scope) [] := by
  rw [request_of_instruction hi]
  rfl

theorem request_makeClosure (hi : exe.instruction? ip = some ⟨.makeClosure name, source⟩)
    (hf : (exe.function? name).isSome) :
    request exe (F.at ip stack scope) =
      .goOn (F.at (ip + 1) (.closure name scope.bindings :: stack) scope) [] := by
  obtain ⟨info, hinfo⟩ := Option.isSome_iff_exists.mp hf
  have hb : (F.at ip stack scope).bindings? = some scope.bindings := rfl
  rw [request_of_instruction hi]
  simp only [Request.ofOp, execute, hinfo, hb]
  rfl

theorem jumpTarget_of_lt {target : Nat} (h : (ip : Int) + offset = target)
    (hlt : target < exe.code.length) : jumpTarget exe ip offset = .ok target := by
  have hbound : (0 : Int) ≤ target ∧ (target : Int) < exe.code.length := by omega
  simp [jumpTarget, h, hbound]

theorem request_jump {target : Nat} (hi : exe.instruction? ip = some ⟨.jump offset, source⟩)
    (h : (ip : Int) + offset = target) (hlt : target < exe.code.length) :
    request exe (F.at ip stack scope) = .goOn (F.at target stack scope) [] := by
  have hip : (F.at ip stack scope).ip = ip := rfl
  rw [request_of_instruction hi]
  simp only [Request.ofOp, execute, hip, jumpTarget_of_lt h hlt]
  rfl

theorem request_jumpIf_true {target : Nat}
    (hi : exe.instruction? ip = some ⟨.jumpIf offset, source⟩) (hv : v.isTruthy)
    (h : (ip : Int) + offset = target) (hlt : target < exe.code.length) :
    request exe (F.at ip (v :: stack) scope) = .goOn (F.at target stack scope) [] := by
  have hstack : (F.at ip (v :: stack) scope).stack = v :: stack := rfl
  have hip : ((F.at ip (v :: stack) scope).withStack stack).ip = ip := rfl
  rw [request_of_instruction hi]
  simp only [Request.ofOp, execute, hstack, hip, hv, if_true, jumpTarget_of_lt h hlt]
  rfl

theorem request_jumpIf_false (hi : exe.instruction? ip = some ⟨.jumpIf offset, source⟩)
    (hv : v.isTruthy = false) :
    request exe (F.at ip (v :: stack) scope) = .goOn (F.at (ip + 1) stack scope) [] := by
  have hstack : (F.at ip (v :: stack) scope).stack = v :: stack := rfl
  rw [request_of_instruction hi]
  simp only [Request.ofOp, execute, hstack, hv]
  rfl

theorem request_wait (hi : exe.instruction? ip = some ⟨.wait, source⟩)
    (hs : (F.at ip (v :: stack) scope).Plain) :
    request exe (F.at ip (v :: stack) scope) = .goOn (F.at (ip + 1) (v :: stack) scope) [] := by
  rw [request_of_instruction hi]
  cases v with
  | future task => exact (hs task (.inl (by simp [Frame.at]))).elim
  | _ => rfl

theorem request_ret {back : Nat} (hi : exe.instruction? ip = some ⟨.ret, source⟩)
    (hback : F.returnIp = some back) :
    request exe (F.at ip (v :: stack) scope) =
      .goOn { F.at back (v :: stack) scope with activations := F.callers } [] := by
  rw [request_of_instruction hi]
  simp only [Request.ofOp, execute, returnValue, Frame.at, hback]
  rfl

theorem request_ret_last (hi : exe.instruction? ip = some ⟨.ret, source⟩)
    (hback : F.returnIp = none) :
    request exe (F.at ip (v :: stack) scope) =
      .halt { F.at ip stack scope with activations := F.callers } v := by
  rw [request_of_instruction hi]
  simp only [Request.ofOp, execute, returnValue, Frame.at, hback]
  rfl

end Requests

/-! ## Expressions -/

/-- The functions that an evaluation knows have their code in a program. -/
structure Executable.Links (exe : Executable) (functions : List Region) : Prop where
  missing {name : String} : Evaluator.find? functions name = none → exe.function? name = none
  found {name : String} {r : Region} : Evaluator.find? functions name = some r →
    ∃ location tag, exe.function? name = some ⟨location, r.function.params, tag⟩ ∧
      exe.Has location r.code
  knows {r : Region} : r ∈ functions → exe.Knows r.next r.function.body.functions
  sync {r : Region} : r ∈ functions → r.function.body.isSync

theorem Executable.Links.isSome {exe : Executable} {functions : List Region}
    (h : exe.Links functions) (name : String) :
    (exe.function? name).isSome = (Evaluator.find? functions name).isSome := by
  cases hf : Evaluator.find? functions name with
  | none => simp [h.missing hf]
  | some r =>
    obtain ⟨location, tag, hr, -⟩ := h.found hf
    simp [hr]

namespace Evaluator

variable {exe : Executable} {functions : List Region} {apply : Apply} {fuel : Nat} {F : Frame}
  {ip : Nat} {stack : List Value} {scope : Scope} {source : List String}

theorem realized_lookup (hlink : exe.Links functions) {name : String}
    (hi : exe.instruction? ip = some ⟨.pushBinding name, source⟩) :
    (Answer.ofExcept (lookup functions scope name) scope).Realized exe fuel
      (F.at ip stack scope) fun v scope => F.at (ip + 1) (v :: stack) scope := by
  have hlookup : Teal.lookup exe (F.at ip stack scope) name = lookup functions scope name := by
    have hb : (F.at ip stack scope).bindings?.bind (·.get? name) = scope.bindings.get? name := rfl
    unfold Teal.lookup lookup
    rw [hb]
    cases scope.bindings.get? name with
    | some v => rfl
    | none => simp only [hlink.isSome]
  have hr := request_of_instruction (s := F.at ip stack scope) hi
  simp only [Request.ofOp, execute, hlookup] at hr
  cases hv : lookup functions scope name with
  | ok v =>
    rw [hv] at hr
    exact .step hr (.given rfl)
  | error e =>
    rw [hv] at hr
    exact .raised hr

theorem realized_operate {op : Operator} {a b : Value}
    (hi : exe.instruction? ip = some ⟨.operate op, source⟩) :
    (Answer.ofExcept (op.apply a b) scope).Realized exe fuel
      (F.at ip (b :: a :: stack) scope) fun v scope => F.at (ip + 1) (v :: stack) scope := by
  have hstack : (F.at ip (b :: a :: stack) scope).stack = b :: a :: stack := rfl
  have hr := request_of_instruction (s := F.at ip (b :: a :: stack) scope) hi
  simp only [Request.ofOp, execute, hstack] at hr
  cases hv : op.apply a b with
  | ok v =>
    rw [hv] at hr
    exact .step hr (.given rfl)
  | error e =>
    rw [hv] at hr
    exact .raised hr

def Applies (exe : Executable) (fuel : Nat) (apply : Apply) : Prop :=
  ∀ (F : Frame) (ip : Nat) (stack : List Value) (callee : Value) (args keywords : List Value)
    (source : List String) (scope : Scope),
    exe.instruction? ip = some ⟨.call args.length keywords, source⟩ →
    (F.at ip (callee :: (args.reverse ++ stack)) scope).Plain →
    (apply callee args keywords scope).Realized exe fuel
      (F.at ip (callee :: (args.reverse ++ stack)) scope) fun v scope =>
        F.at (ip + 1) (v :: stack) scope

/-- The code of an expression, wherever it is placed, does what the expression means. -/
def Means (exe : Executable) (functions : List Region) (apply : Apply) (fuel : Nat) (e : Expr) :
    Prop :=
  ∀ (next : Nat) (F : Frame) (ip : Nat) (stack : List Value) (scope : Scope), e.isSync →
    exe.Has ip (e.code next) → ip + (e.code next).length < exe.code.length →
    exe.Knows next e.functions → (F.at ip stack scope).Plain →
    (eval functions apply next e scope).Realized exe fuel (F.at ip stack scope) fun v scope =>
      F.at (ip + (e.code next).length) (v :: stack) scope

theorem length_evalAll {args : List Expr} {next : Nat} {vs : List Value} {scope scope' : Scope}
    (h : evalAll functions apply next args scope = .given vs scope') : vs.length = args.length := by
  induction args generalizing next vs scope scope' with
  | nil =>
    simp only [evalAll, Answer.given.injEq] at h
    simp [← h.1]
  | cons e rest ih =>
    simp only [evalAll] at h
    cases he : eval functions apply next e scope with
    | given v scope₁ =>
      cases hrest : evalAll functions apply (next + e.functions.length) rest scope₁ with
      | given ws scope₂ =>
        simp only [he, hrest, Answer.andThen, Answer.given.injEq] at h
        simp [← h.1, ih hrest]
      | _ => simp [he, hrest, Answer.andThen] at h
    | _ => simp [he, Answer.andThen] at h

theorem means_all (hexe : exe.FutureFree) {args : List Expr}
    (ih : ∀ a ∈ args, Means exe functions apply fuel a) (next : Nat) (F : Frame) (ip : Nat)
    (stack : List Value) (scope : Scope) (hsync : Expr.areSync args)
    (hcode : exe.Has ip (Expr.codeOfAll next args))
    (hend : ip + (Expr.codeOfAll next args).length < exe.code.length)
    (hknows : exe.Knows next (Expr.functionsOfAll args)) (hs : (F.at ip stack scope).Plain) :
    (evalAll functions apply next args scope).Realized exe fuel (F.at ip stack scope)
      fun vs scope =>
        F.at (ip + (Expr.codeOfAll next args).length) (vs.reverse ++ stack) scope := by
  induction args generalizing next ip stack scope with
  | nil => exact .given rfl
  | cons e rest ihRest =>
    simp only [Expr.areSync, Bool.and_eq_true] at hsync
    simp only [Expr.codeOfAll, List.length_append] at hcode hend ⊢
    simp only [Expr.functionsOfAll] at hknows
    simp only [evalAll]
    refine .andThen hexe hs (ih e (by simp) next F ip stack scope hsync.1 hcode.left (by omega)
      hknows.left hs) fun v scope _ hs => ?_
    refine .andThen hexe hs (ihRest (fun a ha => ih a (by simp [ha])) (next + e.functions.length)
      (ip + (e.code next).length) (v :: stack) scope hsync.2 hcode.right (by omega) hknows.right
      hs) fun vs scope _ _ => .given ?_
    simp [Nat.add_assoc]

theorem means_rest (hexe : exe.FutureFree) {items : List Expr}
    (ih : ∀ a ∈ items, Means exe functions apply fuel a) (next : Nat) (F : Frame) (ip : Nat)
    (stack : List Value) (last : Value) (scope : Scope) (hsync : Expr.areSync items)
    (hcode : exe.Has ip (Expr.codeOfRest next items))
    (hend : ip + (Expr.codeOfRest next items).length < exe.code.length)
    (hknows : exe.Knows next (Expr.functionsOfAll items))
    (hs : (F.at ip (last :: stack) scope).Plain) :
    (evalRest functions apply next items last scope).Realized exe fuel
      (F.at ip (last :: stack) scope) fun v scope =>
        F.at (ip + (Expr.codeOfRest next items).length) (v :: stack) scope := by
  induction items generalizing next ip last scope with
  | nil => exact .given rfl
  | cons e rest ihRest =>
    simp only [Expr.areSync, Bool.and_eq_true] at hsync
    simp only [Expr.codeOfRest, List.length_append, List.length_singleton] at hcode hend ⊢
    simp only [Expr.functionsOfAll] at hknows
    have hpop : request exe (F.at ip (last :: stack) scope) =
        .goOn (F.at (ip + 1) stack scope) [] := request_pop hcode.left.left.first
    have hs : (F.at (ip + 1) stack scope).Plain := (Leads.one hpop).plain hexe hs
    refine .step hpop (.andThen hexe hs (ih e (by simp) next F (ip + 1) stack scope hsync.1
      hcode.left.right (by omega) hknows.left hs) fun v scope _ hs => ?_)
    have hplace : ip + ([e.emit .pop] ++ e.code next).length = ip + 1 + (e.code next).length := by
      rw [List.length_append, List.length_singleton, Nat.add_assoc]
    refine .mono (ihRest (fun a ha => ih a (by simp [ha])) (next + e.functions.length)
      (ip + 1 + (e.code next).length) v scope hsync.2 (hplace ▸ hcode.right) (by omega)
      hknows.right hs) fun v scope => ?_
    simp [Nat.add_assoc]

theorem means_else {alternative : Option Expr}
    (ih : ∀ e ∈ alternative, Means exe functions apply fuel e) {next : Nat} {self : Expr}
    (F : Frame)
    (hsync : Expr.isSyncElse alternative)
    (hcode : exe.Has ip (Expr.codeOfElse next (self.emit (.pushValue .null)) alternative))
    (hend : ip + (Expr.codeOfElse next (self.emit (.pushValue .null)) alternative).length <
      exe.code.length)
    (hknows : exe.Knows next (Expr.functionsOfElse alternative))
    (hs : (F.at ip stack scope).Plain) :
    (evalElse functions apply next alternative scope).Realized exe fuel (F.at ip stack scope)
      fun v scope =>
        F.at (ip + (Expr.codeOfElse next (self.emit (.pushValue .null)) alternative).length)
          (v :: stack) scope := by
  cases alternative with
  | none => exact .step (request_pushValue hcode.first) (.given rfl)
  | some e => exact ih e rfl next F ip stack scope hsync hcode hend hknows hs

theorem means_call (hexe : exe.FutureFree) (happly : Applies exe fuel apply) {loc : Location}
    {callee : Expr} {args : List Expr} (ihCallee : Means exe functions apply fuel callee)
    (ihArgs : ∀ a ∈ args, Means exe functions apply fuel a) :
    Means exe functions apply fuel (.call loc callee args) := by
  intro next F ip stack scope hsync hcode hend hknows hs
  simp only [Expr.isSync, Bool.and_eq_true] at hsync
  simp only [Expr.code, List.length_append, List.length_singleton] at hcode hend ⊢
  simp only [Expr.functions] at hknows
  simp only [eval]
  have hcall := hcode.right.first
  rw [List.length_append, ← Nat.add_assoc] at hcall
  refine .andThen hexe hs (means_all hexe ihArgs next F ip stack scope hsync.1 hcode.left.left
    (by omega) hknows.left hs) fun values scope hvalues hs => ?_
  refine .andThen hexe hs (ihCallee _ F _ (values.reverse ++ stack) scope hsync.2
    hcode.left.right (by omega) hknows.right hs) fun f scope _ hs => ?_
  rw [← length_evalAll hvalues] at hcall
  exact (happly F _ stack f values _ _ scope hcall hs).mono fun v scope => by
    simp [Nat.add_assoc]

/-- One of the branches is evaluated, and control goes on after both. -/
theorem means_conditional (hexe : exe.FutureFree) {loc : Location} {condition consequence : Expr}
    {alternative : Option Expr} (ihCondition : Means exe functions apply fuel condition)
    (ihConsequence : Means exe functions apply fuel consequence)
    (ihAlternative : ∀ e ∈ alternative, Means exe functions apply fuel e) :
    Means exe functions apply fuel (.conditional loc condition consequence alternative) := by
  intro next F ip stack scope hsync hcode hend hknows hs
  simp only [Expr.isSync, Bool.and_eq_true] at hsync
  obtain ⟨⟨hsyncCondition, hsyncConsequence⟩, hsyncAlternative⟩ := hsync
  simp only [Expr.code, List.length_append, List.length_singleton] at hcode hend ⊢
  simp only [Expr.functions] at hknows
  simp only [eval]
  generalize hself : Expr.conditional loc condition consequence alternative = self at hcode hend ⊢
  generalize hnext : next + condition.functions.length = next' at hcode hend hknows ⊢
  generalize hother : Expr.codeOfElse next' (self.emit (.pushValue .null)) alternative =
    otherwise at hcode hend ⊢
  generalize hchosen : Expr.code (next' + (Expr.functionsOfElse alternative).length)
    consequence = chosen at hcode hend ⊢
  have hjumpIf := hcode.left.left.left.right.first
  have hotherwise := hcode.left.left.right
  have hjump := hcode.left.right.first
  have hthen := hcode.right
  simp only [List.length_append, List.length_singleton] at hjumpIf hotherwise hjump hthen
  refine .andThen hexe hs (ihCondition next F ip stack scope hsyncCondition
    hcode.left.left.left.left (by omega) hknows.left.left hs) fun v scope _ hs => ?_
  by_cases hv : v.isTruthy
  · rw [if_pos hv]
    have hr : request exe (F.at (ip + (condition.code next).length) (v :: stack) scope) =
        .goOn (F.at (ip + ((condition.code next).length + 1 + otherwise.length + 1)) stack scope)
          [] :=
      request_jumpIf_true hjumpIf hv (by push_cast; omega) (by omega)
    have hs := (Leads.one hr).plain hexe hs
    subst hchosen
    refine .step hr ((ihConsequence _ F _ stack scope hsyncConsequence hthen (by omega) ?_
      hs).mono fun v scope => by simp only [Nat.add_assoc])
    have := hknows.right
    rwa [List.length_append, ← Nat.add_assoc, hnext] at this
  · rw [if_neg hv]
    have hr : request exe (F.at (ip + (condition.code next).length) (v :: stack) scope) =
        .goOn (F.at (ip + (condition.code next).length + 1) stack scope) [] :=
      request_jumpIf_false hjumpIf (by simpa using hv)
    have hs := (Leads.one hr).plain hexe hs
    have hknows : exe.Knows next' (Expr.functionsOfElse alternative) :=
      hnext ▸ hknows.left.right
    have hplace : ip + ((condition.code next).length + 1 + otherwise.length) =
        ip + (condition.code next).length + 1 + otherwise.length := by omega
    rw [hplace] at hjump
    rw [← Nat.add_assoc] at hotherwise
    subst hother
    refine .step hr ((means_else ihAlternative F hsyncAlternative hotherwise (by omega) hknows
      hs).andStep hexe hs fun v scope hs => ?_)
    exact request_jump hjump (by push_cast; omega) (by omega)

theorem means_block (hexe : exe.FutureFree) {loc : Location} {items : List Expr}
    (ih : ∀ e ∈ items, Means exe functions apply fuel e) :
    Means exe functions apply fuel (.block loc items) := by
  intro next F ip stack scope hsync hcode hend hknows hs
  simp only [Expr.isSync] at hsync
  cases items with
  | nil =>
    simp only [Expr.code] at hcode
    exact .step (request_pushValue hcode.first) (.given rfl)
  | cons first rest =>
    simp only [Expr.areSync, Bool.and_eq_true] at hsync
    simp only [Expr.code, List.length_append] at hcode hend ⊢
    simp only [Expr.functions, Expr.functionsOfAll] at hknows
    simp only [eval]
    refine .andThen hexe hs (ih first (by simp) next F ip stack scope hsync.1 hcode.left
      (by omega) hknows.left hs) fun v scope _ hs => ?_
    exact (means_rest hexe (fun a ha => ih a (by simp [ha])) _ F _ stack v scope hsync.2
      hcode.right (by omega) hknows.right hs).mono fun v scope => by simp [Nat.add_assoc]

/-- The code of an expression does what the expression means. -/
theorem means (hexe : exe.FutureFree) (hlink : exe.Links functions)
    (happly : Applies exe fuel apply) (e : Expr) : Means exe functions apply fuel e := by
  induction e with
  | literal loc value | symbol loc name =>
    intro next F ip stack scope _ hcode _ _ _
    simp only [Expr.code] at hcode
    exact .step (request_pushValue hcode.first) (.given rfl)
  | ident loc name =>
    intro next F ip stack scope _ hcode _ _ _
    simp only [Expr.code] at hcode
    simp only [eval]
    exact realized_lookup hlink hcode.first
  | lambda loc params body =>
    intro next F ip stack scope _ hcode _ hknows _
    simp only [Expr.code] at hcode
    have hf := hknows 0 ⟨"lambda", params, body, none, none⟩ rfl
    exact .step (request_makeClosure hcode.first hf) (.given rfl)
  | definition loc name params body tag =>
    intro next F ip stack scope _ hcode _ hknows _
    simp only [Expr.code] at hcode
    have hf := hknows 0 ⟨name, params, body, tag, some name⟩ rfl
    exact .step (request_makeClosure hcode.first hf) (.step (request_bind hcode.tail.first)
      (.given rfl))
  | argument loc keyword value _ ih =>
    intro next F ip stack scope hsync hcode hend hknows hs
    simp only [Expr.isSync] at hsync
    simp only [Expr.code] at hcode hend ⊢
    simp only [Expr.functions] at hknows
    simpa only [eval] using ih next F ip stack scope hsync hcode hend hknows hs
  | binary loc op left right ihLeft ihRight =>
    intro next F ip stack scope hsync hcode hend hknows hs
    simp only [Expr.isSync, Bool.and_eq_true] at hsync
    cases op with
    | assign =>
      simp only [Expr.code, List.length_append, List.length_singleton] at hcode hend ⊢
      simp only [Expr.functions] at hknows
      simp only [eval]
      refine .andThen hexe hs (ihRight next F ip stack scope hsync.2 hcode.left (by omega) hknows
        hs) fun v scope _ hs => .step (request_bind hcode.right.first) (.given ?_)
      cases left <;> rfl
    | calculate op =>
      simp only [Expr.code, List.length_append, List.length_singleton] at hcode hend ⊢
      simp only [Expr.functions] at hknows
      simp only [eval]
      have hop := hcode.right.first
      rw [List.length_append, ← Nat.add_assoc] at hop
      refine .andThen hexe hs (ihLeft next F ip stack scope hsync.1 hcode.left.left (by omega)
        hknows.left hs) fun a scope _ hs => ?_
      refine .andThen hexe hs (ihRight _ F _ (a :: stack) scope hsync.2 hcode.left.right (by omega)
        hknows.right hs) fun b scope _ hs => ?_
      exact (realized_operate hop).mono fun v scope => by simp [Nat.add_assoc]
  | call loc callee args ihCallee ihArgs => exact means_call hexe happly ihCallee ihArgs
  | async loc inner _ =>
    intro next F ip stack scope hsync
    simp [Expr.isSync] at hsync
  | await loc inner ih =>
    intro next F ip stack scope hsync hcode hend hknows hs
    simp only [Expr.isSync] at hsync
    simp only [Expr.code, List.length_append, List.length_singleton] at hcode hend ⊢
    simp only [Expr.functions] at hknows
    simp only [eval]
    exact (ih next F ip stack scope hsync hcode.left (by omega) hknows hs).andStep hexe hs
      fun v scope hs => request_wait hcode.right.first hs
  | conditional loc condition consequence alternative ihCondition ihConsequence ihAlternative =>
    exact means_conditional hexe ihCondition ihConsequence ihAlternative
  | block loc items ih => exact means_block hexe ih

/-! ## Calls -/

theorem find?_eq_some {name : String} {r : Region} (h : find? functions name = some r) :
    r ∈ functions ∧ r.function.name = name :=
  ⟨List.mem_of_find?_eq_some h, by simpa using List.find?_some h⟩

end Evaluator

/-! ## Entrances of functions -/

/-- How many instructions of a function stand before those of its body. -/
def Function.prologue (f : Function) : Nat :=
  if f.itself.isSome then 3 else 0

/-- The code of a function binds what the body is evaluated with and comes to the code of the body,
before the instruction that returns its value. -/
theorem leads_prologue {exe : Executable} {r : Region}
    (hname : (exe.function? r.function.name).isSome) {location : Nat}
    (hcode : exe.Has location r.code) :
    exe.Has (location + r.function.prologue)
        (r.function.body.code r.next ++ [r.function.body.emit .ret]) ∧
      ∀ (F : Frame) (stack : List Value) (bindings : Bindings) (lines : List String),
        Leads exe r.function.prologue (F.at location stack ⟨bindings, lines⟩)
          (F.at (location + r.function.prologue) stack ⟨r.function.activate bindings, lines⟩) := by
  unfold Region.code Function.code at hcode
  cases hself : r.function.itself with
  | none =>
    simp only [hself, List.nil_append] at hcode
    simpa [Function.prologue, Function.activate, hself] using And.intro hcode fun _ _ _ _ => .refl _
  | some name =>
    simp only [hself, List.append_assoc] at hcode
    have hlength : r.function.prologue = 3 := by simp [Function.prologue, hself]
    refine ⟨hlength ▸ hcode.right, fun F stack bindings lines => ?_⟩
    -- a closure of the function itself is bound to its name
    have make : request exe (F.at location stack ⟨bindings, lines⟩) =
        .goOn (F.at (location + 1) (.closure r.function.name bindings :: stack)
          ⟨bindings, lines⟩) [] := request_makeClosure hcode.left.first hname
    have bind : request exe (F.at (location + 1) (.closure r.function.name bindings :: stack)
        ⟨bindings, lines⟩) = .goOn (F.at (location + 2) (.closure r.function.name bindings :: stack)
          ⟨r.function.activate bindings, lines⟩) [] := by
      simpa only [Function.activate, hself, Scope.bind] using
        request_bind (F := F) hcode.left.tail.first
    have pop : request exe (F.at (location + 2) (.closure r.function.name bindings :: stack)
        ⟨r.function.activate bindings, lines⟩) =
        .goOn (F.at (location + 3) stack ⟨r.function.activate bindings, lines⟩) [] :=
      request_pop hcode.left.tail.tail.first
    exact hlength ▸ ((Leads.one make).trans (.one bind)).trans (.one pop)

namespace Evaluator

variable {exe : Executable} {functions : List Region} {apply : Apply} {fuel : Nat}

/-- The code of a function binds what the body is evaluated with, evaluates the body and comes to
the instruction that returns the value. -/
theorem realized_body (hexe : exe.FutureFree) (hlink : exe.Links functions)
    (happly : Applies exe fuel apply) {r : Region} (hr : r ∈ functions)
    (hname : (exe.function? r.function.name).isSome) {location : Nat}
    (hcode : exe.Has location r.code) :
    ∃ ret source, exe.instruction? ret = some ⟨.ret, source⟩ ∧
      ∀ (F : Frame) (stack : List Value) (bindings : Bindings) (lines : List String),
        (F.at location stack ⟨bindings, lines⟩).Plain →
        (eval functions apply r.next r.function.body
          ⟨r.function.activate bindings, lines⟩).Realized exe fuel
          (F.at location stack ⟨bindings, lines⟩) fun v scope => F.at ret (v :: stack) scope := by
  obtain ⟨hbody, prologue⟩ := leads_prologue hname hcode
  have hend := Executable.lt_of_instruction hbody.right.first
  refine ⟨_, _, hbody.right.first, fun F stack bindings lines hs => ?_⟩
  exact .of_leads (prologue F stack bindings lines)
    (means hexe hlink happly r.function.body r.next F _ stack _ (hlink.sync hr) hbody.left hend
      (hlink.knows hr) ((prologue F stack bindings lines).plain hexe hs))

/-- A program and an evaluation agree on what a value stands for when it is called. -/
theorem resolve_eq (hlink : exe.Links functions) (callee : Value) :
    match resolve functions callee with
    | .error e => Callee.resolve exe callee = .error e
    | .ok (.builtin name b) => Callee.resolve exe callee = .ok (.builtin name b)
    | .ok (.body r captured) => r ∈ functions ∧ ∃ location tag,
        Callee.resolve exe callee =
          .ok (.compiled r.function.name ⟨location, r.function.params, tag⟩ captured) ∧
        (exe.function? r.function.name).isSome ∧ exe.Has location r.code := by
  have body {name : String} {r : Region} (hr : find? functions name = some r) :
      r ∈ functions ∧ r.function.name = name ∧ ∃ location tag,
        exe.function? name = some ⟨location, r.function.params, tag⟩ ∧ exe.Has location r.code := by
    obtain ⟨hmem, hname⟩ := find?_eq_some hr
    exact ⟨hmem, hname, hlink.found hr⟩
  cases callee with
  | function name =>
    cases hr : find? functions name with
    | some r =>
      obtain ⟨hmem, rfl, location, tag, hf, hcode⟩ := body hr
      simp only [resolve, hr, Callee.resolve, hf]
      exact ⟨hmem, location, tag, rfl, rfl, hcode⟩
    | none =>
      simp only [resolve, hr, Callee.resolve, hlink.missing hr]
      cases Builtin.ofName? name <;> rfl
  | closure name captured =>
    cases hr : find? functions name with
    | some r =>
      obtain ⟨hmem, rfl, location, tag, hf, hcode⟩ := body hr
      simp only [resolve, hr, Callee.resolve, hf]
      exact ⟨hmem, location, tag, rfl, rfl, hcode⟩
    | none => simp only [resolve, hr, Callee.resolve, hlink.missing hr]
  | _ => rfl

theorem takeCall_values (callee : Value) (args stack : List Value) :
    takeCall args.length (callee :: (args.reverse ++ stack)) = .ok ⟨callee, args, stack⟩ := by
  have hneg : ¬ (args.length : Int) < 0 := by omega
  have hlen : ¬ (args.reverse ++ stack).length < args.length := by simp
  simp only [takeCall, if_neg hneg, Int.toNat_natCast, if_neg hlen]
  rw [← List.length_reverse, List.take_left, List.drop_left, List.reverse_reverse]

/-- Calls do what the evaluation of calls does, whatever its fuel is. -/
theorem applies_applyWith (hexe : exe.FutureFree) (hlink : exe.Links functions) (fuel : Nat) :
    Applies exe fuel (applyWith functions fuel) := by
  induction fuel with
  | zero => exact fun _ _ _ _ _ _ _ _ _ _ => ⟨_, .refl _⟩
  | succ fuel ih =>
    intro F ip stack callee args keywords source scope hi hs
    have hcall : request exe (F.at ip (callee :: (args.reverse ++ stack)) scope) =
        Request.ofCall exe (F.at ip (callee :: (args.reverse ++ stack)) scope)
          ⟨callee, args, stack⟩ keywords := by
      have hstack : (F.at ip (callee :: (args.reverse ++ stack)) scope).stack =
        callee :: (args.reverse ++ stack) := rfl
      rw [request_of_instruction hi]
      simp only [Request.ofOp, hstack, takeCall_values]
    have hresolve := resolve_eq hlink callee
    simp only [Request.ofCall] at hcall
    simp only [applyWith]
    rcases hr : resolve functions callee with e | ⟨r, captured⟩ | ⟨name, b⟩
    · simp only [hr] at hresolve
      simp only [hresolve] at hcall
      exact .raised hcall
    · simp only [hr] at hresolve
      obtain ⟨hmem, location, tag, hresolve, hname, hcode⟩ := hresolve
      simp only [hresolve] at hcall
      dsimp only
      rcases hb : argumentBindings r.function.name r.function.params captured args keywords with
        e | bindings
      · simp only [hb] at hcall
        exact .raised hcall
      · simp only [hb] at hcall
        obtain ⟨ret, source, hret, body⟩ := realized_body hexe hlink ih hmem hname hcode
        let inner : Frame :=
          { F with
            function := r.function.name
            returnIp := some (ip + 1)
            callers := ⟨F.function, scope.bindings, F.returnIp⟩ :: F.callers }
        have hs : (inner.at location stack ⟨bindings, scope.lines⟩).Plain :=
          (Leads.one hcall).plain hexe hs
        refine .enter hcall (.andThen hexe hs (body inner stack bindings scope.lines hs)
          fun v last _ _ => .step (request_ret (F := inner) hret rfl) (.given rfl))
    · simp only [hr] at hresolve
      simp only [hresolve] at hcall
      dsimp only
      rcases hb : b.call name args keywords with e | ⟨v, lines⟩
      · simp only [hb] at hcall
        exact .raised hcall
      · simp only [hb] at hcall
        refine ⟨1, .head hcall ?_⟩
        rw [Builtin.lines_of_call hb]
        exact .refl _

end Evaluator

end Teal
