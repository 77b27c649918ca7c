import Teal.Machine.Run
import Teal.Proofs.Parts

/-!
# Requests of sessions

A step of a session needs little of the world: a new task, a result that may be there or not, or
nothing at all. `request` is what a step asks for, computed from the session alone; `perform`
grants it. Whatever holds of all worlds is proved over the six kinds of requests and not over
the instructions.

## Main definitions

* `Request`: what a step asks of the world, with the values it prints.
* `request`: the request of the next step of a session.
* `Request.perform`: a request granted in a world.
* `TakenCall.effect`: what a call does, in its session or as a task.
* `Request.Rule`: the ways in which an operation of a session can go.
* `MachineError.isLocal`, `MachineError.isInternal`: errors that a session raises by itself, and
  errors that no program should be able to raise.

## Main statements

* `step_eq_perform`: a step is its request, performed.
* `request_rule`: every request is made in one of these ways.
* `request_keeps`: a request leaves the identity, status, result and output of its session.
* `request_holds`: what a request holds and a step cannot make was held by the session or is a
  constant of the program.
* `request_error_local`: a session fails by itself only with errors of its own.
-/

namespace Teal

/-- What a step of a session asks of the world. -/
inductive Request
  /-- The session goes on, after `print` was called with these arguments. -/
  | goOn (s : Session) (prints : List (List Value))
  | halt (s : Session) (value : Value)
  | fail (s : Session) (error : MachineError)
  /-- A new session, whose future is pushed. -/
  | spawn (s : Session) (ip : Nat) (first : Activation)
  /-- A new task that has its result already, whose future is pushed. -/
  | settle (s : Session) (value : Value) (prints : List (List Value))
  /-- The result of a task, whose future is on the stack above `rest`. -/
  | await (s : Session) (task : TaskId) (rest : List Value)

def printLine (args : List Value) : String :=
  String.intercalate " " (args.map Value.display)

def Builtin.prints (b : Builtin) (args : List Value) : List (List Value) :=
  match b with
  | .print => [args]
  | .list | .hash => []

def Session.print (s : Session) (prints : List (List Value)) : Session :=
  { s with output := s.output ++ prints.map printLine }

def Session.push (s : Session) (v : Value) : Session :=
  { s with stack := v :: s.stack }

namespace Request

def perform (w : World) : Request → Turn
  | .goOn s prints => .goOn w (s.print prints)
  | .halt s v => ⟨w, s, .halted v⟩
  | .fail s e => .fail w s e
  | .spawn s ip first => .goOn (w.spawn ip first).2 (s.push (.future w.nextId))
  | .settle s v prints =>
    .goOn (w.addSettled (.resolved v)).2 ((s.push (.future w.nextId)).print prints)
  | .await s task rest => Teal.await w s (.future task) rest

def session : Request → Session
  | .goOn s _ | .halt s _ | .fail s _ | .spawn s _ _ | .settle s _ _ | .await s _ _ => s

def prints : Request → List (List Value)
  | .goOn _ prints | .settle _ _ prints => prints
  | _ => []

def ofTurn (turn : Turn) : Request :=
  match turn.signal with
  | .next | .suspended _ => .goOn turn.session []
  | .halted v => .halt turn.session v
  | .failed e => .fail turn.session e

def ofCall (exe : Executable) (s : Session) (call : TakenCall) (keywords : List Value) :
    Request :=
  let s := s.withStack call.stack
  match Callee.resolve exe call.callee with
  | .error e => .fail s e
  | .ok (.compiled name info captured) =>
    match argumentBindings name info.params captured call.args keywords with
    | .error e => .fail s e
    | .ok bindings =>
      .goOn { s with
        activations := ⟨name, bindings, some (s.ip + 1)⟩ :: s.activations, ip := info.location } []
  | .ok (.builtin name b) =>
    match b.call name call.args keywords with
    | .error e => .fail s e
    | .ok (v, _) => .goOn (s.advance.push v) (b.prints call.args)

def ofAsyncCall (exe : Executable) (s : Session) (call : TakenCall) (keywords : List Value) :
    Request :=
  let s := s.withStack call.stack
  match Callee.resolve exe call.callee with
  | .error e => .fail s e
  | .ok (.compiled name info captured) =>
    match argumentBindings name info.params captured call.args keywords with
    | .error e => .fail s e
    | .ok bindings => .spawn s.advance info.location { function := name, bindings }
  | .ok (.builtin name b) =>
    match b.call name call.args keywords with
    | .error e => .fail s e
    | .ok (v, _) => .settle s.advance v (b.prints call.args)

/-- The request of an operation. The operations that are not calls and do not wait never look
at the world, so any world tells what they do. -/
def ofOp (exe : Executable) (s : Session) : Op → Request
  | .call count keywords =>
    match takeCall count s.stack with
    | .ok call => ofCall exe s call keywords
    | .error (e, stack) => .fail (s.withStack stack) e
  | .asyncCall count keywords =>
    match takeCall count s.stack with
    | .ok call => ofAsyncCall exe s call keywords
    | .error (e, stack) => .fail (s.withStack stack) e
  | .wait =>
    match s.stack with
    | [] => .fail s .stackUnderflow
    | .future task :: rest => .await s task rest
    | v :: rest => .goOn (s.advance.withStack (v :: rest)) []
  | op => ofTurn (execute exe {} s op)

end Request

def request (exe : Executable) (s : Session) : Request :=
  match exe.instruction? s.ip with
  | some i => Request.ofOp exe s i.op
  | none => .fail s (.invalidPointer s.ip)

/-! ## What a call does -/

/-- What a call does if it does not fail: it enters a function, or has the value of a builtin. -/
inductive TakenCall.Effect
  | enters (name : String) (info : FunctionEntry) (bindings : Bindings)
  | gives (v : Value) (prints : List (List Value))

def TakenCall.effect (exe : Executable) (call : TakenCall) (keywords : List Value) :
    Except MachineError Effect :=
  match Callee.resolve exe call.callee with
  | .error e => .error e
  | .ok (.compiled name info captured) =>
    (argumentBindings name info.params captured call.args keywords).map (.enters name info)
  | .ok (.builtin name b) =>
    (b.call name call.args keywords).map fun (v, _) => .gives v (b.prints call.args)

section Effects

variable {exe : Executable} {call : TakenCall} {keywords : List Value}

/-- A call that enters a function binds its arguments over what the callee has captured. -/
theorem TakenCall.bindings_of_effect {name : String} {info : FunctionEntry} {b : Bindings}
    (h : call.effect exe keywords = .ok (.enters name info b)) :
    ∃ captured, Callee.resolve exe call.callee = .ok (.compiled name info captured) ∧
      argumentBindings name info.params captured call.args keywords = .ok b := by
  unfold effect at h
  split at h
  · cases h
  · next name' info' captured hres =>
    cases hb : argumentBindings name' info'.params captured call.args keywords <;>
      rw [hb] at h <;> cases h
    exact ⟨captured, hres, hb⟩
  · next name' b' _ =>
    cases hv : b'.call name' call.args keywords <;> rw [hv] at h <;> cases h

/-- A call that has a value at once is one of a builtin. -/
theorem TakenCall.value_of_effect {v : Value} {prints : List (List Value)}
    (h : call.effect exe keywords = .ok (.gives v prints)) :
    ∃ name b lines, b.call name call.args keywords = .ok (v, lines) ∧
      prints = Builtin.prints b call.args := by
  unfold effect at h
  split at h
  · cases h
  · next name' info' captured _ =>
    cases hb : argumentBindings name' info'.params captured call.args keywords <;>
      rw [hb] at h <;> cases h
  · next name' b' _ =>
    cases hv : b'.call name' call.args keywords <;> rw [hv] at h <;> cases h
    exact ⟨name', b', _, hv, rfl⟩

/-- A call fails because its callee cannot be called, or does not take the arguments. -/
theorem TakenCall.error_of_effect {e : MachineError} (h : call.effect exe keywords = .error e) :
    Callee.resolve exe call.callee = .error e ∨
    (∃ function params captured,
      argumentBindings function params captured call.args keywords = .error e) ∨
    ∃ name, ∃ b : Builtin, b.call name call.args keywords = .error e := by
  unfold effect at h
  split at h
  · next hres =>
    cases h
    exact .inl hres
  · next name info captured _ =>
    cases hb : argumentBindings name info.params captured call.args keywords <;>
      rw [hb] at h <;> cases h
    exact .inr (.inl ⟨name, info.params, captured, hb⟩)
  · next name b _ =>
    cases hv : b.call name call.args keywords <;> rw [hv] at h <;> cases h
    exact .inr (.inr ⟨name, b, hv⟩)

theorem Request.ofCall_eq (exe : Executable) (s : Session) (call : TakenCall)
    (keywords : List Value) :
    ofCall exe s call keywords = match call.effect exe keywords with
      | .error e => .fail (s.withStack call.stack) e
      | .ok (.enters name info bindings) => .goOn { s with
          stack := call.stack, activations := ⟨name, bindings, some (s.ip + 1)⟩ :: s.activations
          ip := info.location } []
      | .ok (.gives v prints) => .goOn (s.advance.withStack (v :: call.stack)) prints := by
  simp only [ofCall, TakenCall.effect]
  rcases Callee.resolve exe call.callee with e | ⟨name, info, captured⟩ | ⟨name, b⟩
  · rfl
  · dsimp only
    cases argumentBindings name info.params captured call.args keywords <;> rfl
  · dsimp only
    cases b.call name call.args keywords <;> rfl

theorem Request.ofAsyncCall_eq (exe : Executable) (s : Session) (call : TakenCall)
    (keywords : List Value) :
    ofAsyncCall exe s call keywords = match call.effect exe keywords with
      | .error e => .fail (s.withStack call.stack) e
      | .ok (.enters name info bindings) =>
        .spawn (s.advance.withStack call.stack) info.location { function := name, bindings }
      | .ok (.gives v prints) => .settle (s.advance.withStack call.stack) v prints := by
  simp only [ofAsyncCall, TakenCall.effect]
  rcases Callee.resolve exe call.callee with e | ⟨name, info, captured⟩ | ⟨name, b⟩
  · rfl
  · dsimp only
    cases argumentBindings name info.params captured call.args keywords <;> rfl
  · dsimp only
    cases b.call name call.args keywords <;> rfl

end Effects

/-! ## How an operation can go -/

/-- There are too few values for an operation, or there is no activation. -/
def Session.Lacks (s : Session) : Op → Prop
  | .pop | .jumpIf _ | .wait => s.stack = []
  | .bind _ | .ret => s.stack = [] ∨ s.activations = []
  | .makeClosure _ => s.activations = []
  | .operate _ => s.stack.length < 2
  | _ => False

inductive Request.Rule (exe : Executable) (s : Session) : Op → Request → Prop
  | pushValue {v} : Rule exe s (.pushValue v) (.goOn (s.advance.withStack (v :: s.stack)) [])
  | pushBinding {name v} : lookup exe s name = .ok v →
    Rule exe s (.pushBinding name) (.goOn (s.advance.withStack (v :: s.stack)) [])
  | unbound {name e} : lookup exe s name = .error e → Rule exe s (.pushBinding name) (.fail s e)
  | bind {name v rest latest callers} : s.stack = v :: rest → s.activations = latest :: callers →
    Rule exe s (.bind name) (.goOn { s.advance with
      activations := { latest with bindings := latest.bindings.insert name v } :: callers } [])
  | pop {v rest} : s.stack = v :: rest → Rule exe s .pop (.goOn (s.advance.withStack rest) [])
  | jump {offset ip} : jumpTarget exe s.ip offset = .ok ip →
    Rule exe s (.jump offset) (.goOn { s with ip } [])
  | badJump {offset e} : jumpTarget exe s.ip offset = .error e →
    Rule exe s (.jump offset) (.fail s e)
  | jumpIf {offset v rest ip} : s.stack = v :: rest → v.isTruthy = true →
    jumpTarget exe s.ip offset = .ok ip →
    Rule exe s (.jumpIf offset) (.goOn { s with stack := rest, ip } [])
  | badJumpIf {offset v rest e} : s.stack = v :: rest → jumpTarget exe s.ip offset = .error e →
    Rule exe s (.jumpIf offset) (.fail (s.withStack rest) e)
  | pass {offset v rest} : s.stack = v :: rest → v.isTruthy = false →
    Rule exe s (.jumpIf offset) (.goOn (s.advance.withStack rest) [])
  /-- A call takes its operands off the stack. -/
  | untaken {op count keywords e stack} :
    op = .call count keywords ∨ op = .asyncCall count keywords →
    takeCall count s.stack = .error (e, stack) → Rule exe s op (.fail (s.withStack stack) e)
  | refused {op count keywords call e} :
    op = .call count keywords ∨ op = .asyncCall count keywords →
    takeCall count s.stack = .ok call → call.effect exe keywords = .error e →
    Rule exe s op (.fail (s.withStack call.stack) e)
  | entered {count keywords call name info bindings} : takeCall count s.stack = .ok call →
    call.effect exe keywords = .ok (.enters name info bindings) →
    Rule exe s (.call count keywords) (.goOn { s with
      stack := call.stack, activations := ⟨name, bindings, some (s.ip + 1)⟩ :: s.activations
      ip := info.location } [])
  | given {count keywords call v prints} : takeCall count s.stack = .ok call →
    call.effect exe keywords = .ok (.gives v prints) →
    Rule exe s (.call count keywords) (.goOn (s.advance.withStack (v :: call.stack)) prints)
  | started {count keywords call name info bindings} : takeCall count s.stack = .ok call →
    call.effect exe keywords = .ok (.enters name info bindings) →
    Rule exe s (.asyncCall count keywords) (.spawn (s.advance.withStack call.stack) info.location
      { function := name, bindings })
  | settled {count keywords call v prints} : takeCall count s.stack = .ok call →
    call.effect exe keywords = .ok (.gives v prints) →
    Rule exe s (.asyncCall count keywords) (.settle (s.advance.withStack call.stack) v prints)
  | await {task rest} : s.stack = .future task :: rest → Rule exe s .wait (.await s task rest)
  /-- Only a future is waited for. -/
  | ready {v rest} : s.stack = v :: rest → (∀ task, v ≠ .future task) →
    Rule exe s .wait (.goOn (s.advance.withStack (v :: rest)) [])
  | back {v rest latest callers ip} : s.stack = v :: rest → s.activations = latest :: callers →
    latest.returnIp = some ip →
    Rule exe s .ret (.goOn { s with stack := v :: rest, activations := callers, ip } [])
  | halt {v rest latest callers} : s.stack = v :: rest → s.activations = latest :: callers →
    latest.returnIp = none →
    Rule exe s .ret (.halt { s with stack := rest, activations := callers } v)
  | closure {function info captured} : exe.function? function = some info →
    s.bindings? = some captured → Rule exe s (.makeClosure function)
      (.goOn (s.advance.withStack (.closure function captured :: s.stack)) [])
  | unknown {function} : exe.function? function = none →
    Rule exe s (.makeClosure function) (.fail s (.unknownFunction function))
  | operate {op left right rest v} : s.stack = right :: left :: rest →
    op.apply left right = .ok v →
    Rule exe s (.operate op) (.goOn (s.advance.withStack (v :: rest)) [])
  | misapplied {op left right rest e} : s.stack = right :: left :: rest →
    op.apply left right = .error e → Rule exe s (.operate op) (.fail (s.withStack rest) e)
  | underflow {op stack} : s.Lacks op → stack ⊆ s.stack →
    Rule exe s op (.fail (s.withStack stack) .stackUnderflow)

section Rules

variable {exe : Executable} {s : Session}

theorem Session.bindings?_eq_none (h : s.bindings? = none) : s.activations = [] := by
  simpa [bindings?] using h

/-- A call goes as its effect says. -/
theorem Request.rule_ofCall {count : Int} {keywords : List Value} {call : TakenCall}
    (htake : takeCall count s.stack = .ok call) :
    Rule exe s (.call count keywords) (ofCall exe s call keywords) := by
  rw [ofCall_eq]
  split
  · next h => exact .refused (.inl rfl) htake h
  · next h => exact .entered htake h
  · next h => exact .given htake h

theorem Request.rule_ofAsyncCall {count : Int} {keywords : List Value} {call : TakenCall}
    (htake : takeCall count s.stack = .ok call) :
    Rule exe s (.asyncCall count keywords) (ofAsyncCall exe s call keywords) := by
  rw [ofAsyncCall_eq]
  split
  · next h => exact .refused (.inr rfl) htake h
  · next h => exact .started htake h
  · next h => exact .settled htake h

/-- Every operation goes in one of these ways. -/
theorem Request.rule_ofOp (exe : Executable) (s : Session) (op : Op) :
    Rule exe s op (ofOp exe s op) := by
  have underflow {op : Op} (h : s.Lacks op) : Rule exe s op (.fail s .stackUnderflow) :=
    show Rule exe s op (.fail (s.withStack s.stack) .stackUnderflow) from
      .underflow h (List.Subset.refl _)
  cases op with
  | pushValue v => exact .pushValue
  | pushBinding name =>
    simp only [ofOp, execute]
    split
    · next h => exact .pushBinding h
    · next h => exact .unbound h
  | bind name =>
    cases hs : s.stack with
    | nil =>
      simp only [ofOp, execute, hs]
      exact underflow (.inl hs)
    | cons v rest =>
      simp only [ofOp, execute, hs, List.head?_cons, Option.bind_some]
      simp only [Session.bindName]
      cases ha : s.activations with
      | nil => exact underflow (.inr ha)
      | cons latest callers => exact .bind hs ha
  | pop =>
    simp only [ofOp, execute]
    split
    · next hs => exact .pop hs
    · next hs => exact underflow hs
  | jump offset =>
    simp only [ofOp, execute]
    split
    · next h => exact .jump h
    · next h => exact .badJump h
  | jumpIf offset =>
    simp only [ofOp, execute]
    split
    · next hs => exact underflow hs
    · next hs =>
      split
      · next hv =>
        split
        · next h => exact .jumpIf hs hv h
        · next h => exact .badJumpIf hs h
      · next hv => exact .pass hs (by simpa using hv)
  | call count keywords =>
    simp only [ofOp]
    split
    · next h => exact rule_ofCall h
    · next h => exact .untaken (.inl rfl) h
  | asyncCall count keywords =>
    simp only [ofOp]
    split
    · next h => exact rule_ofAsyncCall h
    · next h => exact .untaken (.inr rfl) h
  | wait =>
    simp only [ofOp]
    split
    · next hs => exact underflow hs
    · next hs => exact .await hs
    · next hv hs => exact .ready hs hv
  | ret =>
    simp only [ofOp, execute]
    split
    · next hs => exact underflow (.inl hs)
    · next v rest hs =>
      simp only [returnValue]
      split
      · next ha => exact .underflow (.inr ha) (hs ▸ List.subset_cons_self v rest)
      · next ha =>
        split
        · next hip => exact .back hs ha hip
        · next hip => exact .halt hs ha hip
  | makeClosure function =>
    simp only [ofOp, execute]
    split
    · next hf => exact .unknown hf
    · next hb => exact underflow (Session.bindings?_eq_none hb)
    · next hf hb => exact .closure hf hb
  | operate op =>
    simp only [ofOp, execute]
    split
    · next hs =>
      split
      · next h => exact .operate hs h
      · next h => exact .misapplied hs h
    · next hs =>
      refine .underflow ?_ (List.nil_subset _)
      rcases h : s.stack with _ | ⟨right, _ | ⟨left, rest⟩⟩
      · simp [Session.Lacks, h]
      · simp [Session.Lacks, h]
      · exact absurd h (hs right left rest)

/-- The next request of a session is that of the instruction at its pointer, if there is one. -/
theorem request_rule (exe : Executable) (s : Session) :
    (∃ i ∈ exe.code, exe.instruction? s.ip = some i ∧ Request.Rule exe s i.op (request exe s)) ∨
    request exe s = .fail s (.invalidPointer s.ip) := by
  unfold request
  split
  · next i hi => exact .inl ⟨i, List.mem_of_getElem? hi, hi, Request.rule_ofOp exe s i.op⟩
  · exact .inr rfl

end Rules

/-! ## Steps are requests -/

@[simp] theorem Session.print_nil (s : Session) : s.print [] = s := by
  simp [Session.print]

/-- A builtin writes one line for each argument list it prints. -/
theorem Builtin.lines_of_call {name : String} {b : Builtin} {args keywords : List Value}
    {v : Value} {lines : List String} (h : b.call name args keywords = .ok (v, lines)) :
    lines = (b.prints args).map printLine := by
  unfold Builtin.call at h
  cases hk : rejectKeywords name keywords with
  | error e => simp [hk, bind, Except.bind] at h
  | ok _ =>
    simp only [hk, bind, Except.bind] at h
    cases b with
    | list => cases h; rfl
    | hash =>
      simp only [invoke] at h
      split at h <;> cases h
      rfl
    | print => cases h; rfl

theorem enter_eq_perform (exe : Executable) (w : World) (s : Session) (call : TakenCall)
    (keywords : List Value) :
    enter exe w s call keywords = (Request.ofCall exe s call keywords).perform w := by
  simp only [enter, Request.ofCall]
  rcases Callee.resolve exe call.callee with e | ⟨name, info, captured⟩ | ⟨name, b⟩
  · rfl
  · dsimp only
    rcases argumentBindings name info.params captured call.args keywords with e | bindings
    · rfl
    · simp [Request.perform]
  · dsimp only
    rcases h : b.call name call.args keywords with e | ⟨v, lines⟩
    · rfl
    · simp [Request.perform, Session.print, Session.push, Session.advance,
        Session.withStack, Builtin.lines_of_call h]

theorem spawnTask_eq_perform (exe : Executable) (w : World) (s : Session) (call : TakenCall)
    (keywords : List Value) :
    spawnTask exe w s call keywords = (Request.ofAsyncCall exe s call keywords).perform w := by
  simp only [spawnTask, Request.ofAsyncCall]
  rcases Callee.resolve exe call.callee with e | ⟨name, info, captured⟩ | ⟨name, b⟩
  · rfl
  · dsimp only
    rcases argumentBindings name info.params captured call.args keywords with e | bindings <;> rfl
  · dsimp only
    rcases h : b.call name call.args keywords with e | ⟨v, lines⟩
    · rfl
    · simp [Request.perform, Session.print, Session.push, Session.advance,
        Session.withStack, Builtin.lines_of_call h, World.addSettled]

theorem execute_eq_perform (exe : Executable) (w : World) (s : Session) (op : Op) :
    execute exe w s op = (Request.ofOp exe s op).perform w := by
  cases op with
  | call count keywords =>
    simp only [execute, Request.ofOp]
    rcases takeCall count s.stack with ⟨e, stack⟩ | call
    · rfl
    · exact enter_eq_perform exe w s call keywords
  | asyncCall count keywords =>
    simp only [execute, Request.ofOp]
    rcases takeCall count s.stack with ⟨e, stack⟩ | call
    · rfl
    · exact spawnTask_eq_perform exe w s call keywords
  | wait =>
    simp only [execute, Request.ofOp]
    rcases s.stack with _ | ⟨v, rest⟩
    · rfl
    · cases v <;> simp [await, Request.perform]
  | ret =>
    simp only [execute, Request.ofOp]
    split
    · rfl
    · simp only [returnValue]
      split
      · rfl
      · split <;> simp [Request.ofTurn, Turn.goOn, Request.perform]
  | pushValue value => simp [execute, Request.ofOp, Request.ofTurn, Turn.goOn, Request.perform]
  | pushBinding name =>
    simp only [execute, Request.ofOp]
    split <;> simp [Request.ofTurn, Turn.goOn, Turn.fail, Request.perform]
  | bind name =>
    simp only [execute, Request.ofOp]
    split <;> simp [Request.ofTurn, Turn.goOn, Turn.fail, Request.perform]
  | pop =>
    simp only [execute, Request.ofOp]
    split <;> simp [Request.ofTurn, Turn.goOn, Turn.fail, Request.perform]
  | jump offset =>
    simp only [execute, Request.ofOp]
    split <;> simp [Request.ofTurn, Turn.goOn, Turn.fail, Request.perform]
  | jumpIf offset =>
    simp only [execute, Request.ofOp]
    split
    · rfl
    · split
      · split <;> simp [Request.ofTurn, Turn.goOn, Turn.fail, Request.perform]
      · simp [Request.ofTurn, Turn.goOn, Request.perform]
  | makeClosure function =>
    simp only [execute, Request.ofOp]
    split <;> simp [Request.ofTurn, Turn.goOn, Turn.fail, Request.perform]
  | operate op =>
    simp only [execute, Request.ofOp]
    split
    · split <;> simp [Request.ofTurn, Turn.goOn, Turn.fail, Request.perform]
    · rfl

/-- A step is its request, performed. -/
theorem step_eq_perform (exe : Executable) (w : World) (s : Session) :
    step exe w s = (request exe s).perform w := by
  unfold step request
  rcases exe.instruction? s.ip with _ | i
  · rfl
  · exact execute_eq_perform exe w s i.op

/-! ## What a request leaves alone -/

/-- Two sessions differ only in how far they came. -/
structure Session.Keeps (s t : Session) : Prop where
  id : t.id = s.id
  status : t.status = s.status
  result : t.result = s.result
  output : t.output = s.output

theorem Session.keeps_withStack (s : Session) (stack : List Value) :
    s.Keeps (s.withStack stack) := ⟨rfl, rfl, rfl, rfl⟩

theorem Request.Rule.keeps {exe : Executable} {s : Session} {op : Op} {r : Request}
    (rule : Rule exe s op r) : s.Keeps r.session := by
  cases rule <;> exact ⟨rfl, rfl, rfl, rfl⟩

/-- A request leaves the identity, status, result and output of its session. -/
theorem request_keeps (exe : Executable) (s : Session) : s.Keeps (request exe s).session := by
  rcases request_rule exe s with ⟨i, -, -, rule⟩ | h
  · exact rule.keeps
  · rw [h]
    exact ⟨rfl, rfl, rfl, rfl⟩

theorem Session.keeps_of_request {exe : Executable} {s : Session} {r : Request}
    (hr : request exe s = r) : s.Keeps r.session :=
  hr ▸ request_keeps exe s

/-- A session asks for the result of a task at an instruction to wait only. -/
theorem wait_of_request_await {exe : Executable} {s t : Session} {task : TaskId}
    {rest : List Value} (h : request exe s = .await t task rest) :
    ∃ i, exe.instruction? s.ip = some i ∧ i.op = .wait := by
  rcases request_rule exe s with ⟨i, -, hi, rule⟩ | hr
  · rw [h] at rule
    generalize hop : i.op = op at rule
    cases rule
    exact ⟨i, hi, hop⟩
  · rw [h] at hr
    cases hr

/-- A session asks for the result of a task while its future is on top of the stack. -/
theorem request_await {exe : Executable} {s t : Session} {task : TaskId} {rest : List Value}
    (h : request exe s = .await t task rest) : t = s ∧ s.stack = .future task :: rest := by
  rcases request_rule exe s with ⟨i, -, -, rule⟩ | hr
  · rw [h] at rule
    generalize i.op = op at rule
    cases rule with
    | await hs => exact ⟨rfl, hs⟩
  · rw [h] at hr
    cases hr

/-- At an instruction to wait, with a future on top of the stack, a session asks for its result. -/
theorem request_of_wait {exe : Executable} {s : Session} {i : Instruction} {task : TaskId}
    {rest : List Value} (hi : exe.instruction? s.ip = some i) (hop : i.op = .wait)
    (hs : s.stack = .future task :: rest) : request exe s = .await s task rest := by
  simp [request, hi, hop, Request.ofOp, hs]

/-! ## What a request holds -/

/-- The values that a step can make out of a session by itself: functions that are known, closures
of such functions over the latest bindings, finite doubles and everything else without parts of
that kind. A future is made with its task only. -/
def Executable.Makes (exe : Executable) (s : Session) : Value → Prop
  | .function name => (exe.function? name).isSome ∨ (Builtin.ofName? name).isSome
  | .closure name captured => (exe.function? name).isSome ∧ s.bindings? = some captured
  | .float x => x.isFinite
  | .future _ => False
  | _ => True

def Session.Holds (s : Session) (u : Value) : Prop :=
  u.Within s.stack ∨ ∃ a ∈ s.activations, u.Bound a.bindings

def Request.Holds (r : Request) (u : Value) : Prop :=
  r.session.Holds u ∨ (∃ args ∈ r.prints, u.Within args) ∨
    match r with
    | .halt _ v | .settle _ v _ => u.Part v
    | .spawn _ _ first => u.Bound first.bindings
    | _ => False

def Executable.Mentions (exe : Executable) (u : Value) : Prop :=
  ∃ i ∈ exe.code, ∃ v, i.op = .pushValue v ∧ u.Part v

section Holds

open Value

variable {exe : Executable} {s t : Session} {u : Value}

@[simp] theorem Request.holds_goOn {prints : List (List Value)} :
    (Request.goOn t prints).Holds u ↔ t.Holds u ∨ ∃ args ∈ prints, u.Within args := by
  simp [Holds, session, Request.prints]

theorem Request.holds_goOn_nil : (Request.goOn t []).Holds u ↔ t.Holds u := by
  simp

@[simp] theorem Request.holds_halt {v : Value} :
    (Request.halt t v).Holds u ↔ t.Holds u ∨ u.Part v := by
  simp [Holds, session, prints]

@[simp] theorem Request.holds_fail {e : MachineError} : (Request.fail t e).Holds u ↔ t.Holds u := by
  simp [Holds, session, prints]

@[simp] theorem Request.holds_spawn {ip : Nat} {first : Activation} :
    (Request.spawn t ip first).Holds u ↔ t.Holds u ∨ u.Bound first.bindings := by
  simp [Holds, session, prints]

@[simp] theorem Request.holds_settle {v : Value} {prints : List (List Value)} :
    (Request.settle t v prints).Holds u ↔
      t.Holds u ∨ (∃ args ∈ prints, u.Within args) ∨ u.Part v := by
  simp [Holds, session, Request.prints]

@[simp] theorem Request.holds_await {task : TaskId} {rest : List Value} :
    (Request.await t task rest).Holds u ↔ t.Holds u := by
  simp [Holds, session, prints]

theorem Executable.not_makes_future {t : TaskId} : ¬ exe.Makes s (.future t) := fun made => made

theorem Value.passedOn_of_not_makes (hu : ¬ exe.Makes s u) : u.passedOn := by
  cases u <;> simp_all [Executable.Makes, passedOn]

theorem Session.holds_of_bindings? {b : Bindings} (h : s.bindings? = some b) (hu : u.Bound b) :
    s.Holds u := by
  obtain ⟨a, ha, rfl⟩ := Option.map_eq_some_iff.mp h
  exact .inr ⟨a, List.mem_of_mem_head? ha, hu⟩

/-- With other values on the stack, a session holds only these and what it held. -/
theorem Session.holds_of_stack (hu : t.Holds u) (hact : t.activations = s.activations)
    (h : u.Within t.stack → s.Holds u) : s.Holds u := by
  rcases hu with hu | hu
  · exact h hu
  · exact .inr (hact ▸ hu)

/-- A session that has bound a value of its stack holds what it held. -/
theorem Session.holds_of_bind {name : String} {v : Value} {latest : Activation}
    {callers : List Activation} (hu : t.Holds u) (hv : v ∈ s.stack)
    (ha : s.activations = latest :: callers) (hstack : t.stack = s.stack)
    (hact : t.activations = { latest with bindings := latest.bindings.insert name v } :: callers) :
    s.Holds u := by
  rcases hu with hu | ⟨a, hmem, hu⟩
  · exact .inl (hstack ▸ hu)
  · rcases List.mem_cons.mp (hact ▸ hmem) with rfl | hmem
    · rcases bound_insert hu with hu | hu
      · exact .inl ⟨v, hv, hu⟩
      · exact .inr ⟨latest, by simp [ha], hu⟩
    · exact .inr ⟨a, by simp [ha, hmem], hu⟩

theorem lookup_holds {name : String} {v : Value} (hu : ¬ exe.Makes s u)
    (h : lookup exe s name = .ok v) (hv : u.Part v) : s.Holds u := by
  unfold lookup at h
  split at h
  · next hx =>
    cases h
    obtain ⟨b, hb, hx⟩ := Option.bind_eq_some_iff.mp hx
    exact Session.holds_of_bindings? hb (bound_of_get? hx hv)
  · split at h
    · next hknown =>
      cases h
      rw [part_function.mp hv] at hu
      exact absurd (by simpa [Executable.Makes] using hknown) hu
    · cases h

theorem takeCall_subset {count : Int} {stack : List Value} {call : TakenCall}
    (h : takeCall count stack = .ok call) :
    call.callee ∈ stack ∧ call.args ⊆ stack ∧ call.stack ⊆ stack := by
  unfold takeCall at h
  split at h
  · cases h
  · split at h
    · cases h
    · split at h
      · cases h
      · cases h
        refine ⟨List.mem_cons_self, ?_, ?_⟩
        · intro v hv
          exact List.mem_cons_of_mem _ (List.mem_of_mem_take (List.mem_reverse.mp hv))
        · intro v hv
          exact List.mem_cons_of_mem _ (List.mem_of_mem_drop hv)

theorem takeCall_error_subset {count : Int} {stack rest : List Value} {e : MachineError}
    (h : takeCall count stack = .error (e, rest)) : rest ⊆ stack := by
  unfold takeCall at h
  split at h
  · cases h
    exact List.Subset.refl _
  · split at h
    · cases h
      simp
    · split at h <;> cases h
      exact List.subset_cons_self _ _

theorem resolve_captured {callee : Value} {name : String} {info : FunctionEntry}
    {captured : Bindings} (h : Callee.resolve exe callee = .ok (.compiled name info captured))
    (hu : u.Bound captured) : u.Part callee := by
  unfold Callee.resolve at h
  split at h
  · split at h <;> cases h
    simp at hu
  · split at h <;> cases h
    exact part_closure.mpr (.inr hu)
  · cases h

/-- What the bindings of a call hold was on the stack that the call was taken from. -/
theorem within_of_bindings {count : Int} {call : TakenCall} {keywords : List Value} {name : String}
    {info : FunctionEntry} {b : Bindings} (htake : takeCall count s.stack = .ok call)
    (h : call.effect exe keywords = .ok (.enters name info b)) (hu : u.Bound b) :
    u.Within s.stack := by
  obtain ⟨hcallee, hargs, -⟩ := takeCall_subset htake
  obtain ⟨captured, hres, hb⟩ := TakenCall.bindings_of_effect h
  rcases part_argumentBindings hb hu with hu | hu
  · exact hu.mono hargs
  · exact ⟨_, hcallee, resolve_captured hres hu⟩

/-- What the value of a builtin holds, and what it prints, was on the stack as well. -/
theorem within_of_value {count : Int} {call : TakenCall} {keywords : List Value} {v : Value}
    {prints : List (List Value)} (hu : u.passedOn) (htake : takeCall count s.stack = .ok call)
    (h : call.effect exe keywords = .ok (.gives v prints))
    (hv : u.Part v ∨ ∃ args ∈ prints, u.Within args) : u.Within s.stack := by
  obtain ⟨-, hargs, -⟩ := takeCall_subset htake
  obtain ⟨name, b, lines, hb, rfl⟩ := TakenCall.value_of_effect h
  rcases hv with hv | ⟨args, hprints, hv⟩
  · exact (Builtin.part_call hu hb hv).mono hargs
  · cases b with
    | print => exact (List.mem_singleton.mp hprints ▸ hv).mono hargs
    | list | hash => cases hprints

/-- A session that has lost values holds what it held. -/
theorem Session.holds_of_subset (hu : t.Holds u) (hact : t.activations = s.activations)
    (sub : t.stack ⊆ s.stack) : s.Holds u :=
  Session.holds_of_stack hu hact fun h => .inl (h.mono sub)

/-- A session that has pushed a value, and may have lost others, holds this and what it held. -/
theorem Session.holds_of_push {v : Value} {rest : List Value} (hu : t.Holds u)
    (hact : t.activations = s.activations) (hstack : t.stack = v :: rest) (sub : rest ⊆ s.stack)
    (hv : u.Part v → s.Holds u) : s.Holds u :=
  Session.holds_of_stack hu hact fun h =>
    (Value.within_cons.mp (hstack ▸ h)).elim hv fun h => .inl (h.mono sub)

/-- What a session holds above its callers was there when it returns to them. -/
theorem Session.holds_of_callers {latest : Activation} {callers : List Activation}
    (hu : t.Holds u) (ha : s.activations = latest :: callers) (hact : t.activations = callers)
    (sub : t.stack ⊆ s.stack) : s.Holds u := by
  rcases hu with hu | ⟨a, hmem, hu⟩
  · exact .inl (hu.mono sub)
  · exact .inr ⟨a, by simp [ha, ← hact, hmem], hu⟩

theorem Request.Rule.holds {op : Op} {r : Request} (rule : Rule exe s op r)
    (hu : ¬ exe.Makes s u) (h : r.Holds u) :
    s.Holds u ∨ ∃ v, op = .pushValue v ∧ u.Part v := by
  have hpassed : u.passedOn := passedOn_of_not_makes hu
  have tail {v : Value} {rest : List Value} (hs : s.stack = v :: rest) : rest ⊆ s.stack :=
    hs ▸ List.subset_cons_self v rest
  have tail₂ {v w : Value} {rest : List Value} (hs : s.stack = v :: w :: rest) :
      rest ⊆ s.stack :=
    List.Subset.trans (List.subset_cons_self w rest) (tail hs)
  cases rule with
  | @pushValue v =>
    rcases holds_goOn_nil.mp h with h | h
    · exact (within_cons.mp h).elim (fun h => .inr ⟨v, rfl, h⟩) fun h => .inl (.inl h)
    · exact .inl (.inr h)
  | pushBinding hl =>
    exact .inl (Session.holds_of_push (holds_goOn_nil.mp h) rfl rfl (List.Subset.refl _)
      (lookup_holds hu hl))
  | bind hs ha =>
    exact .inl (Session.holds_of_bind (holds_goOn_nil.mp h) (hs ▸ List.mem_cons_self) ha rfl rfl)
  | pop hs => exact .inl (Session.holds_of_subset (holds_goOn_nil.mp h) rfl (tail hs))
  | jump => exact .inl (holds_goOn_nil.mp h)
  | jumpIf hs => exact .inl (Session.holds_of_subset (holds_goOn_nil.mp h) rfl (tail hs))
  | pass hs => exact .inl (Session.holds_of_subset (holds_goOn_nil.mp h) rfl (tail hs))
  | unbound | badJump | unknown => exact .inl (holds_fail.mp h)
  | badJumpIf hs => exact .inl (Session.holds_of_subset (holds_fail.mp h) rfl (tail hs))
  | underflow _ sub => exact .inl (Session.holds_of_subset (holds_fail.mp h) rfl sub)
  | untaken _ htake =>
    exact .inl (Session.holds_of_subset (holds_fail.mp h) rfl (takeCall_error_subset htake))
  | refused _ htake =>
    exact .inl (Session.holds_of_subset (holds_fail.mp h) rfl (takeCall_subset htake).2.2)
  | entered htake heffect =>
    rcases holds_goOn_nil.mp h with h | ⟨a, ha, h⟩
    · exact .inl (.inl (h.mono (takeCall_subset htake).2.2))
    · rcases List.mem_cons.mp ha with rfl | ha
      · exact .inl (.inl (within_of_bindings htake heffect h))
      · exact .inl (.inr ⟨a, ha, h⟩)
  | given htake heffect =>
    rcases holds_goOn.mp h with h | h
    · exact .inl (Session.holds_of_push h rfl rfl (takeCall_subset htake).2.2 fun h =>
        .inl (within_of_value hpassed htake heffect (.inl h)))
    · exact .inl (.inl (within_of_value hpassed htake heffect (.inr h)))
  | started htake heffect =>
    rcases holds_spawn.mp h with h | h
    · exact .inl (Session.holds_of_subset h rfl (takeCall_subset htake).2.2)
    · exact .inl (.inl (within_of_bindings htake heffect h))
  | settled htake heffect =>
    rcases holds_settle.mp h with h | h
    · exact .inl (Session.holds_of_subset h rfl (takeCall_subset htake).2.2)
    · exact .inl (.inl (within_of_value hpassed htake heffect h.symm))
  | await => exact .inl (holds_await.mp h)
  | ready hs =>
    exact .inl (Session.holds_of_push (holds_goOn_nil.mp h) rfl rfl (tail hs) fun h =>
      .inl (hs ▸ within_cons.mpr (.inl h)))
  | back hs ha =>
    exact .inl (Session.holds_of_callers (holds_goOn_nil.mp h) ha rfl (by simp [hs]))
  | halt hs ha =>
    rcases holds_halt.mp h with h | h
    · exact .inl (Session.holds_of_callers h ha rfl (tail hs))
    · exact .inl (.inl (hs ▸ within_cons.mpr (.inl h)))
  | closure hf hb =>
    refine .inl (Session.holds_of_push (holds_goOn_nil.mp h) rfl rfl (List.Subset.refl _)
      fun h => ?_)
    rcases part_closure.mp h with rfl | h
    · exact absurd ⟨by simp [hf], hb⟩ hu
    · exact Session.holds_of_bindings? hb h
  | operate hs ha =>
    refine .inl (Session.holds_of_push (holds_goOn_nil.mp h) rfl rfl (tail₂ hs) fun h => ?_)
    rcases Operator.part_apply hpassed ha h with h | h
    · exact .inl (by simp [hs, h])
    · exact .inl (by simp [hs, h])
  | misapplied hs => exact .inl (Session.holds_of_subset (holds_fail.mp h) rfl (tail₂ hs))

/-- What a request holds and a step cannot make was held by the session or is a constant of the
program. -/
theorem request_holds (hu : ¬ exe.Makes s u) (h : (request exe s).Holds u) :
    s.Holds u ∨ exe.Mentions u := by
  rcases request_rule exe s with ⟨i, hi, -, rule⟩ | hr
  · exact (rule.holds hu h).imp_right fun ⟨v, hop, hv⟩ => ⟨i, hi, v, hop, hv⟩
  · rw [hr, Request.holds_fail] at h
    exact .inl h

end Holds

/-! ## Errors of sessions -/

/-- The errors that a session raises by itself, without regard to other tasks. -/
def MachineError.isLocal : MachineError → Bool
  | .taskFailed _ _ | .unknownTask _ | .unknownSession _ | .notRunnable _ | .deadlock _ => false
  | _ => true

/-- A mismatch that only the operands of an instruction can cause. -/
def TypeMismatch.isShape : TypeMismatch → Bool
  | .argumentCount | .keywordSlots _ _ _ | .keywordTag _ => true
  | .notCallable _ | .unpairedHash _ | .operands _ _ _ | .comparison _ _ => false

/-- The errors that only bad code or a bad scheduler can cause. -/
def MachineError.isInternal : MachineError → Bool
  | .stackUnderflow | .unknownFunction _ | .invalidPointer _ | .badJump _ _ | .unknownTask _
  | .unknownSession _ | .notRunnable _ => true
  | .typeMismatch mismatch => mismatch.isShape
  | .unboundName _ | .arity _ _ _ | .unknownKeyword _ _ | .duplicateArgument _ _ | .divisionByZero
  | .overflow | .taskFailed _ _ | .deadlock _ => false

section Errors

variable {exe : Executable} {s t : Session} {e : MachineError}

theorem error_of_lookup {name : String} (h : lookup exe s name = .error e) :
    e = .unboundName name := by
  unfold lookup at h
  split at h
  · cases h
  · split at h <;> cases h
    rfl

theorem jumpTarget_isLocal {ip : Nat} {offset : Int} (h : jumpTarget exe ip offset = .error e) :
    e.isLocal := by
  simp only [jumpTarget] at h
  split at h <;> cases h
  rfl

theorem takeCall_isLocal {count : Int} {stack rest : List Value}
    (h : takeCall count stack = .error (e, rest)) : e.isLocal := by
  unfold takeCall at h
  split at h
  · cases h; rfl
  · split at h
    · cases h; rfl
    · split at h <;> cases h
      rfl

theorem resolve_isLocal {callee : Value} (h : Callee.resolve exe callee = .error e) :
    e.isLocal := by
  unfold Callee.resolve at h
  split at h
  · split at h <;> cases h
    rfl
  · split at h <;> cases h
    rfl
  · cases h; rfl

theorem Claims.add_isLocal {function : String} {params : List String} {c : Claims}
    {arg keyword : Value} (h : c.add function params arg keyword = .error e) : e.isLocal := by
  unfold Claims.add at h
  grind [MachineError.isLocal]

theorem Claims.addAll_isLocal {function : String} {params : List String} {c : Claims}
    {entries : List (Value × Value)} (h : c.addAll function params entries = .error e) :
    e.isLocal := by
  induction entries generalizing c with
  | nil => cases h
  | cons entry rest ih =>
    simp only [Claims.addAll, bind, Except.bind] at h
    split at h
    · next hc => cases h; exact Claims.add_isLocal hc
    · exact ih h

theorem argumentBindings_isLocal {function : String} {params : List String} {captured : Bindings}
    {args keywords : List Value}
    (h : argumentBindings function params captured args keywords = .error e) : e.isLocal := by
  simp only [argumentBindings, bind, Except.bind] at h
  split at h
  · cases h; rfl
  · split at h
    · next hc => cases h; exact Claims.addAll_isLocal hc
    · split at h <;> cases h
      rfl

theorem Builtin.error_of_call {name : String} {b : Builtin} {args keywords : List Value}
    (h : b.call name args keywords = .error e) : e.isLocal ∧ e.isInternal = false := by
  simp only [Builtin.call, rejectKeywords, bind, Except.bind] at h
  cases b <;> simp only [Builtin.invoke] at h <;>
    grind [MachineError.isLocal, MachineError.isInternal, TypeMismatch.isShape]

theorem Operator.error_of_apply {op : Operator} {a b : Value} (h : op.apply a b = .error e) :
    e.isLocal ∧ e.isInternal = false := by
  cases op <;> simp only [apply, calculate, compared, onIntegers, onFloats, checked, finite, join,
    unsupported] at h <;>
    grind [MachineError.isLocal, MachineError.isInternal, TypeMismatch.isShape]

theorem TakenCall.effect_isLocal {call : TakenCall} {keywords : List Value}
    (h : call.effect exe keywords = .error e) : e.isLocal := by
  rcases error_of_effect h with hres | ⟨function, params, captured, hb⟩ | ⟨name, b, hb⟩
  · exact resolve_isLocal hres
  · exact argumentBindings_isLocal hb
  · exact (Builtin.error_of_call hb).1

theorem Request.Rule.isLocal {op : Op} (rule : Rule exe s op (.fail t e)) : e.isLocal := by
  cases rule with
  | unbound h => exact error_of_lookup h ▸ rfl
  | badJump h => exact jumpTarget_isLocal h
  | badJumpIf _ h => exact jumpTarget_isLocal h
  | untaken _ h => exact takeCall_isLocal h
  | refused _ _ h => exact TakenCall.effect_isLocal h
  | misapplied _ h => exact (Operator.error_of_apply h).1
  | unknown | underflow => rfl

/-- A session fails by itself only with errors of its own. -/
theorem request_error_local (h : request exe s = .fail t e) : e.isLocal := by
  rcases request_rule exe s with ⟨i, -, -, rule⟩ | hr
  · rw [h] at rule
    exact rule.isLocal
  · rw [h] at hr
    cases hr
    rfl

end Errors

end Teal
