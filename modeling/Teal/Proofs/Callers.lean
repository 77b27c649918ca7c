import Teal.Proofs.Discipline
import Teal.Proofs.Expansion

/-!
# Sessions and their callers

A session of compiled code never looks below its own values and activations, so it makes the same
requests above those of a caller; only at its end it returns where it would halt. Nor does it look
at the places of code, so it makes the same requests after the code has moved. At a call that has
become a task, one session enters the function where the other starts a task for it.

## Main definitions

* `Caller`, `Session.over`: what a call returns to, and a session above it.
* `Caller.Accounted`: the activations of a caller account for its values.
* `Session.moved`: a session after the code has moved.

## Main statements

* `request_over`: the requests of a session above a caller.
* `request_moved`: the requests of a session after the code has moved.
* `Request.deferred_cases`: a call, and the task that it has become.
-/

namespace Teal

/-! ## Above a caller -/

/-- Where a call was made, and the values and activations below it. -/
structure Caller where
  site : Nat
  stack : List Value
  activations : List Activation

/-- An activation that returns to a caller where it would have ended its session. -/
def Activation.over (c : Caller) (a : Activation) : Activation :=
  { a with returnIp := a.returnIp.or (some (c.site + 1)) }

def Session.over (s : Session) (c : Caller) : Session :=
  { s with
    stack := s.stack ++ c.stack
    activations := s.activations.map (Activation.over c) ++ c.activations }

def Caller.resume (c : Caller) (s : Session) (v : Value) : Session :=
  { s with ip := c.site + 1, stack := v :: c.stack, activations := c.activations }

def Request.over (c : Caller) : Request → Request
  | .goOn s prints => .goOn (s.over c) prints
  | .halt s v => .goOn (c.resume s v) []
  | .fail s e => .fail (s.over c) e
  | .spawn s ip first => .spawn (s.over c) ip first
  | .settle s v prints => .settle (s.over c) v prints
  | .await s task rest => .await (s.over c) task (rest ++ c.stack)

/-- The activations of a caller account for the values that it has, but for the result. -/
def Caller.Accounted (exe : Executable) (height : Nat → Nat) (c : Caller) : Prop :=
  c.site + 1 < exe.code.length ∧ ∃ own lower, height (c.site + 1) = own + 1 ∧
    c.stack.length = own + lower ∧ Accounts exe height none c.activations lower

section Over

variable {exe : Executable} {height : Nat → Nat} {s : Session} {c : Caller}

theorem Caller.Accounted.resume (h : c.Accounted exe height) (s : Session) (v : Value) :
    (c.resume s v).Above exe height {} := by
  obtain ⟨hlt, own, lower, hheight, hlength, accounts⟩ := h
  refine ⟨hlt, c.activations, v :: c.stack, lower, by simp [Caller.resume], by simp [Caller.resume],
    ?_, accounts⟩
  simp only [Caller.resume, List.length_cons]
  omega

theorem Accounts.over (h : c.Accounted exe height) {activations : List Activation} {lower : Nat}
    (ha : Accounts exe height none activations lower) :
    Accounts exe height none (activations.map (Activation.over c) ++ c.activations)
      (lower + c.stack.length) := by
  obtain ⟨hlt, own, below, hheight, hlength, accounts⟩ := h
  induction ha with
  | @last a ha =>
    rw [Nat.zero_add, hlength]
    exact .caller (by simp [Activation.over, ha]) hlt hheight accounts
  | caller ha hip hheight' _ ih =>
    rw [Nat.add_assoc]
    exact .caller (by simp [Activation.over, ha]) hip hheight' ih

theorem Session.Above.over (h : s.Above exe height {}) (hc : c.Accounted exe height) :
    (s.over c).Above exe height {} := by
  obtain ⟨hlt, activations, values, lower, hacts, hstack, hlength, accounts⟩ := h
  simp only [List.append_nil] at hacts hstack
  refine ⟨hlt, _, _, _, (List.append_nil _).symm, (List.append_nil _).symm, ?_,
    hacts ▸ accounts.over hc⟩
  simp only [Session.over, List.length_append, hstack, hlength]
  omega

/-- At a call a session accounts for what it leaves below. -/
theorem Session.Above.accounted (h : s.Above exe height {}) {count : Int} {keywords : List Value}
    (fits : (Op.call count keywords).Fits exe height exe.code.length s.ip) {call : TakenCall}
    (hstack : call.stack = s.stack.drop (count.toNat + 1)) :
    Caller.Accounted exe height ⟨s.ip, call.stack, s.activations⟩ := by
  obtain ⟨target, htarget, hlt, hheight⟩ := fits.next (List.mem_singleton.mpr rfl)
  obtain rfl : target = s.ip + 1 := by omega
  obtain ⟨-, activations, values, lower, hacts, hvalues, hlength, accounts⟩ := h
  simp only [List.append_nil] at hacts hvalues
  have henough := fits.enough
  simp only [Op.pops, Op.pushes] at henough hheight
  refine ⟨hlt, height s.ip - (count.toNat + 1), lower, ?_, ?_, hacts ▸ accounts⟩
  · show height (s.ip + 1) = _
    omega
  · simp only [hstack, hvalues, List.length_drop]
    omega

theorem Session.bindings?_over {latest : Activation} {rest : List Activation}
    (h : s.activations = latest :: rest) : (s.over c).bindings? = s.bindings? := by
  simp [bindings?, Session.over, h, Activation.over]

theorem lookup_over {latest : Activation} {rest : List Activation}
    (h : s.activations = latest :: rest) (name : String) :
    lookup exe (s.over c) name = lookup exe s name := by
  simp only [lookup, Session.bindings?_over h]

theorem Session.bindName_over {latest : Activation} {rest : List Activation}
    (h : s.activations = latest :: rest) (name : String) (v : Value) :
    (s.over c).bindName name v = (s.bindName name v).map (Session.over · c) := by
  simp [bindName, Session.over, h, Activation.over]

/-- A call takes its operands off the values of the session that makes it. -/
theorem takeCall_append {n : Nat} {stack : List Value} (h : n + 1 ≤ stack.length)
    (below : List Value) : ∃ call, takeCall n stack = .ok call ∧
      takeCall n (stack ++ below) = .ok { call with stack := call.stack ++ below } := by
  cases stack with
  | nil => simp at h
  | cons callee rest =>
    have hlen : n ≤ rest.length := by simpa using h
    have hlen' : n ≤ (rest ++ below).length := hlen.trans (by simp)
    refine ⟨_, takeCall_cons hlen, (takeCall_cons hlen').trans ?_⟩
    rw [List.take_append_of_le_length hlen, List.drop_append_of_le_length hlen]

/-- What a call does does not depend on what is below its operands. -/
theorem TakenCall.effect_withStack (exe : Executable) (call : TakenCall) (stack : List Value)
    (keywords : List Value) :
    TakenCall.effect exe { call with stack } keywords = call.effect exe keywords := rfl

theorem Request.ofCall_over (exe : Executable) (s : Session) (call : TakenCall)
    (keywords : List Value) :
    ofCall exe (s.over c) { call with stack := call.stack ++ c.stack } keywords =
      (ofCall exe s call keywords).over c := by
  simp only [ofCall_eq, TakenCall.effect_withStack]
  rcases call.effect exe keywords with e | ⟨name, info, bindings⟩ | ⟨v, prints⟩ <;> rfl

theorem Request.ofAsyncCall_over (exe : Executable) (s : Session) (call : TakenCall)
    (keywords : List Value) :
    ofAsyncCall exe (s.over c) { call with stack := call.stack ++ c.stack } keywords =
      (ofAsyncCall exe s call keywords).over c := by
  simp only [ofAsyncCall_eq, TakenCall.effect_withStack]
  rcases call.effect exe keywords with e | ⟨name, info, bindings⟩ | ⟨v, prints⟩ <;> rfl

/-- A value is returned inside of a session, or to the caller below it. -/
theorem Request.ret_over (h : s.Above exe height {}) (hlast : height s.ip = 1) :
    ofOp exe (s.over c) .ret = (ofOp exe s .ret).over c := by
  obtain ⟨-, activations, values, lower, hacts, hstack, hlength, accounts⟩ := h
  simp only [List.append_nil] at hacts hstack
  cases values with
  | nil => simp only [List.length_nil] at hlength; omega
  | cons v values =>
    rw [List.length_cons] at hlength
    cases accounts with
    | @last a ha =>
      obtain rfl : values = [] := List.length_eq_zero_iff.mp (by omega)
      simp [ofOp, execute, returnValue, Session.over, hstack, hacts, Activation.over, ha, ofTurn,
        Turn.goOn, Request.over, Caller.resume]
    | @caller a callers ip own lower ha hlt hheight _ =>
      simp [ofOp, execute, returnValue, Session.over, hstack, hacts, Activation.over, ha, ofTurn,
        Turn.goOn, Request.over]

theorem Request.ofOp_over (h : s.Above exe height {}) {op : Op}
    (fits : op.Fits exe height exe.code.length s.ip) :
    ofOp exe (s.over c) op = (ofOp exe s op).over c := by
  have henough := h.enough fits
  obtain ⟨latest, others, hacts⟩ := h.activations_ne_nil
  have stack : (s.over c).stack = s.stack ++ c.stack := rfl
  have ip : (s.over c).ip = s.ip := rfl
  cases op with
  | ret => exact ret_over h (fits.last rfl)
  | call count keywords =>
    obtain ⟨rfl, -⟩ := fits.sane
    obtain ⟨call, htake, htake'⟩ := takeCall_append (n := keywords.length)
      (by simpa [Op.pops] using henough) c.stack
    simp only [ofOp, stack, htake, htake']
    exact ofCall_over exe s call keywords
  | asyncCall count keywords =>
    obtain ⟨rfl, -⟩ := fits.sane
    obtain ⟨call, htake, htake'⟩ := takeCall_append (n := keywords.length)
      (by simpa [Op.pops] using henough) c.stack
    simp only [ofOp, stack, htake, htake']
    exact ofAsyncCall_over exe s call keywords
  | pushValue v => rfl
  | pushBinding name =>
    simp only [ofOp, execute, lookup_over hacts]
    cases lookup exe s name <;> rfl
  | bind name =>
    cases hstack : s.stack with
    | nil => simp [hstack, Op.pops] at henough
    | cons v values =>
      simp only [ofOp, execute, stack, hstack, List.cons_append, List.head?_cons, Option.bind_some,
        Session.bindName_over hacts]
      cases s.bindName name v <;> rfl
  | pop =>
    cases hstack : s.stack with
    | nil => simp [hstack, Op.pops] at henough
    | cons v values =>
      simp only [ofOp, execute, stack, hstack, List.cons_append]
      rfl
  | jump offset =>
    simp only [ofOp, execute, ip]
    cases jumpTarget exe s.ip offset <;> rfl
  | jumpIf offset =>
    cases hstack : s.stack with
    | nil => simp [hstack, Op.pops] at henough
    | cons v values =>
      simp only [ofOp, execute, stack, hstack, List.cons_append, Session.withStack, ip]
      split
      · cases jumpTarget exe s.ip offset <;> rfl
      · rfl
  | wait =>
    cases hstack : s.stack with
    | nil => simp [hstack, Op.pops] at henough
    | cons v values =>
      simp only [ofOp, stack, hstack, List.cons_append]
      cases v <;> rfl
  | makeClosure function =>
    simp only [ofOp, execute, Session.bindings?_over hacts]
    cases exe.function? function with
    | none => rfl
    | some info => cases s.bindings? <;> rfl
  | operate op =>
    rcases hstack : s.stack with _ | ⟨right, _ | ⟨left, values⟩⟩
    · simp [hstack, Op.pops] at henough
    · simp [hstack, Op.pops] at henough
    · simp only [ofOp, execute, stack, hstack, List.cons_append]
      cases op.apply left right <;> rfl

/-- A session makes the same requests above a caller, and returns to it at its end. -/
theorem request_over (balanced : exe.Balanced height) (h : s.Above exe height {}) (c : Caller) :
    request exe (s.over c) = (request exe s).over c := by
  obtain ⟨i, hi⟩ : ∃ i, exe.instruction? s.ip = some i :=
    ⟨_, List.getElem?_eq_getElem h.1⟩
  have ip : (s.over c).ip = s.ip := rfl
  simp only [request, ip, hi]
  exact Request.ofOp_over h (balanced.fits hi)

end Over

/-! ## Moved code -/

def Activation.moved (φ : Nat → Nat) (a : Activation) : Activation :=
  { a with returnIp := a.returnIp.map φ }

def Session.moved (φ : Nat → Nat) (s : Session) : Session :=
  { s with ip := φ s.ip, activations := s.activations.map (Activation.moved φ) }

def Request.moved (φ : Nat → Nat) : Request → Request
  | .goOn s prints => .goOn (s.moved φ) prints
  | .halt s v => .halt (s.moved φ) v
  | .fail s e => .fail (s.moved φ) e
  | .spawn s ip first => .spawn (s.moved φ) (φ ip) first
  | .settle s v prints => .settle (s.moved φ) v prints
  | .await s task rest => .await (s.moved φ) task rest

def Callee.moved (φ : Nat → Nat) : Callee → Callee
  | .compiled name info captured => .compiled name (info.moved φ) captured
  | .builtin name b => .builtin name b

def TakenCall.Effect.moved (φ : Nat → Nat) : TakenCall.Effect → TakenCall.Effect
  | .enters name info bindings => .enters name (info.moved φ) bindings
  | .gives v prints => .gives v prints

section Moved

variable {exe exe' : Executable} {φ : Nat → Nat} {height : Nat → Nat} {s : Session}

theorem Callee.resolve_moved (expands : exe.Expands φ exe') (v : Value) :
    Callee.resolve exe' v = (Callee.resolve exe v).map (Callee.moved φ) := by
  cases v with
  | function name =>
    simp only [resolve, expands.function?]
    cases exe.function? name with
    | some info => rfl
    | none => cases Builtin.ofName? name <;> rfl
  | closure name captured =>
    simp only [resolve, expands.function?]
    cases exe.function? name <;> rfl
  | _ => rfl

theorem Session.moved_advance (hnext : φ (s.ip + 1) = φ s.ip + 1) (stack : List Value) :
    (s.moved φ).advance.withStack stack = (s.advance.withStack stack).moved φ := by
  simp [Session.moved, advance, withStack, hnext]

/-- A call does the same after the code has moved: the function it enters is at its new place. -/
theorem TakenCall.effect_moved (expands : exe.Expands φ exe') (call : TakenCall)
    (keywords : List Value) :
    call.effect exe' keywords = (call.effect exe keywords).map (Effect.moved φ) := by
  simp only [effect, Callee.resolve_moved expands]
  rcases Callee.resolve exe call.callee with e | ⟨name, info, captured⟩ | ⟨name, b⟩
  · rfl
  · simp only [Except.map, Callee.moved, FunctionEntry.moved]
    cases argumentBindings name info.params captured call.args keywords <;> rfl
  · simp only [Except.map, Callee.moved]
    cases b.call name call.args keywords <;> rfl

theorem Request.ofCall_moved (expands : exe.Expands φ exe') (hnext : φ (s.ip + 1) = φ s.ip + 1)
    (call : TakenCall) (keywords : List Value) :
    ofCall exe' (s.moved φ) call keywords = (ofCall exe s call keywords).moved φ := by
  simp only [ofCall_eq, TakenCall.effect_moved expands]
  rcases call.effect exe keywords with e | ⟨name, info, bindings⟩ | ⟨v, prints⟩
  · rfl
  · simp [Except.map, TakenCall.Effect.moved, FunctionEntry.moved, moved, Session.moved,
      Activation.moved, hnext]
  · simp [Except.map, TakenCall.Effect.moved, moved, Session.moved_advance hnext]

theorem Request.ofAsyncCall_moved (expands : exe.Expands φ exe')
    (hnext : φ (s.ip + 1) = φ s.ip + 1) (call : TakenCall) (keywords : List Value) :
    ofAsyncCall exe' (s.moved φ) call keywords = (ofAsyncCall exe s call keywords).moved φ := by
  simp only [ofAsyncCall_eq, TakenCall.effect_moved expands]
  rcases call.effect exe keywords with e | ⟨name, info, bindings⟩ | ⟨v, prints⟩
  · rfl
  · simp [Except.map, TakenCall.Effect.moved, FunctionEntry.moved, moved,
      Session.moved_advance hnext]
  · simp [Except.map, TakenCall.Effect.moved, moved, Session.moved_advance hnext]

theorem Session.bindings?_moved : (s.moved φ).bindings? = s.bindings? := by
  simp only [bindings?, Session.moved]
  cases s.activations <;> rfl

theorem lookup_moved (expands : exe.Expands φ exe') (name : String) :
    lookup exe' (s.moved φ) name = lookup exe s name := by
  simp [lookup, Session.bindings?_moved, expands.function?]

theorem Session.bindName_moved (name : String) (v : Value) :
    (s.moved φ).bindName name v = (s.bindName name v).map (Session.moved φ) := by
  simp only [bindName, Session.moved]
  cases s.activations <;> rfl

/-- A jump leads to the new place of its target. -/
theorem jumpTarget_moved (expands : exe.Expands φ exe') {ip target : Nat} {offset offset' : Int}
    (htarget : (target : Int) = ip + offset) (hlt : target < exe.code.length)
    (hmoved : (φ target : Int) = φ ip + offset') :
    jumpTarget exe ip offset = .ok target ∧ jumpTarget exe' (φ ip) offset' = .ok (φ target) := by
  have hlt' : φ target < exe'.code.length := by
    obtain ⟨i, hi⟩ : ∃ i, exe.instruction? target = some i := ⟨_, List.getElem?_eq_getElem hlt⟩
    have copied := expands.copied hi
    generalize i.op = op at copied
    cases copied with
    | plain _ hj | deferred hj => exact (List.getElem?_eq_some_iff.mp hj).1
  exact ⟨jumpTarget_of_lt htarget.symm hlt, jumpTarget_of_lt hmoved.symm hlt'⟩

/-- An operation that has moved makes the moved request. -/
theorem Request.ofOp_moved (expands : exe.Expands φ exe') (h : s.Above exe height {}) {op : Op}
    (fits : op.Fits exe height exe.code.length s.ip) {offset : Int}
    (hnext : φ (s.ip + 1) = φ s.ip + 1)
    (hjump : ∀ o, op.jump? = some o → ∃ target : Nat, target ≤ exe.code.length ∧
      (target : Int) = s.ip + o ∧ (φ target : Int) = φ s.ip + offset) :
    ofOp exe' (s.moved φ) (op.withJump offset) = (ofOp exe s op).moved φ := by
  have stack : (s.moved φ).stack = s.stack := rfl
  have ip : (s.moved φ).ip = φ s.ip := rfl
  -- both jumps go to a place inside the code
  have jumps {o : Int} (ho : op.jump? = some o) (hmem : o ∈ op.offsets) : ∃ target,
      jumpTarget exe s.ip o = .ok target ∧ jumpTarget exe' (φ s.ip) offset = .ok (φ target) := by
    obtain ⟨target, -, htarget, hmoved⟩ := hjump o ho
    obtain ⟨target', htarget', hlt, -⟩ := fits.next hmem
    obtain rfl : target = target' := by omega
    exact ⟨target, jumpTarget_moved expands htarget hlt hmoved⟩
  cases op with
  | call count keywords =>
    simp only [Op.withJump, ofOp, stack]
    rcases takeCall count s.stack with ⟨e, rest⟩ | call
    · rfl
    · exact ofCall_moved expands hnext call keywords
  | asyncCall count keywords =>
    simp only [Op.withJump, ofOp, stack]
    rcases takeCall count s.stack with ⟨e, rest⟩ | call
    · rfl
    · exact ofAsyncCall_moved expands hnext call keywords
  | pushValue v =>
    simp only [Op.withJump, ofOp, execute, ofTurn, Turn.goOn, stack, Session.moved_advance hnext,
      moved]
  | pushBinding name =>
    simp only [Op.withJump, ofOp, execute, lookup_moved expands, stack,
      Session.moved_advance hnext]
    cases lookup exe s name <;> rfl
  | bind name =>
    simp only [Op.withJump, ofOp, execute, stack]
    cases s.stack.head? with
    | none => rfl
    | some v =>
      simp only [Option.bind_some, Session.bindName_moved]
      cases ht : s.bindName name v with
      | none => rfl
      | some t =>
        have hip : t.ip = s.ip := by
          obtain ⟨latest, rest, hacts⟩ := h.activations_ne_nil
          simp only [Session.bindName, hacts, Option.some.injEq] at ht
          rw [← ht]
        rw [← hip] at hnext
        simp [ofTurn, Turn.goOn, moved, Session.moved, Session.advance, hnext]
  | pop =>
    simp only [Op.withJump, ofOp, execute, stack, Session.moved_advance hnext]
    cases s.stack <;> rfl
  | jump o =>
    obtain ⟨target, htarget, htarget'⟩ := jumps rfl (List.mem_singleton.mpr rfl)
    simp only [Op.withJump, ofOp, execute, ip, htarget, htarget']
    rfl
  | jumpIf o =>
    obtain ⟨target, htarget, htarget'⟩ := jumps rfl (by simp [Op.offsets])
    simp only [Op.withJump, ofOp, execute, stack]
    cases s.stack with
    | nil => rfl
    | cons v rest =>
      simp only [Session.withStack, ip, htarget, htarget']
      split
      · rfl
      · simp [ofTurn, Turn.goOn, moved, Session.moved, Session.advance, hnext]
  | wait =>
    simp only [Op.withJump, ofOp, stack]
    rcases s.stack with _ | ⟨v, rest⟩
    · rfl
    · cases v <;> simp only [Session.moved_advance hnext] <;> rfl
  | ret =>
    simp only [Op.withJump, ofOp, execute, stack]
    cases s.stack with
    | nil => rfl
    | cons v rest =>
      obtain ⟨latest, others, hacts⟩ := h.activations_ne_nil
      simp only [returnValue, Session.moved, hacts, List.map_cons, Activation.moved]
      cases latest.returnIp <;> rfl
  | makeClosure function =>
    simp only [Op.withJump, ofOp, execute, expands.function?, Session.bindings?_moved, stack,
      Session.moved_advance hnext]
    cases exe.function? function with
    | none => rfl
    | some info => cases s.bindings? <;> rfl
  | operate op =>
    simp only [Op.withJump, ofOp, execute, stack, Session.moved_advance hnext]
    rcases s.stack with _ | ⟨right, _ | ⟨left, rest⟩⟩
    · rfl
    · rfl
    · dsimp only
      cases op.apply left right <;> rfl

/-- A session makes the same request after its code has moved, unless it is at a call that has
become a task. -/
theorem request_moved (expands : exe.Expands φ exe') (balanced : exe.Balanced height)
    (h : s.Above exe height {}) {i j : Instruction} {offset : Int}
    (hi : exe.instruction? s.ip = some i) (hj : exe'.instruction? (φ s.ip) = some j)
    (hop : j.op = i.op.withJump offset) (hnext : φ (s.ip + 1) = φ s.ip + 1)
    (hjump : ∀ o, i.op.jump? = some o → ∃ target : Nat, target ≤ exe.code.length ∧
      (target : Int) = s.ip + o ∧ (φ target : Int) = φ s.ip + offset) :
    request exe' (s.moved φ) = (request exe s).moved φ := by
  have ip : (s.moved φ).ip = φ s.ip := rfl
  simp only [request, ip, hi, hj, hop]
  exact Request.ofOp_moved expands h (balanced.fits hi) hnext hjump

/-- A call, and the task that it has become: both fail, or the session enters the function that the
task calls, or it goes on with the value that the task is settled with. -/
theorem Request.deferred_cases (expands : exe.Expands φ exe') (s s' : Session) (call : TakenCall)
    (keywords : List Value) :
    (∃ e, ofCall exe s call keywords = .fail (s.withStack call.stack) e ∧
      ofAsyncCall exe' s' call keywords = .fail (s'.withStack call.stack) e) ∨
    (∃ name info bindings, exe.function? name = some info ∧
      ofCall exe s call keywords = .goOn { s with
        stack := call.stack, activations := ⟨name, bindings, some (s.ip + 1)⟩ :: s.activations
        ip := info.location } [] ∧
      ofAsyncCall exe' s' call keywords = .spawn (s'.advance.withStack call.stack)
        (φ info.location) { function := name, bindings }) ∨
    ∃ v prints,
      ofCall exe s call keywords = .goOn (s.advance.withStack (v :: call.stack)) prints ∧
      ofAsyncCall exe' s' call keywords =
        .settle (s'.advance.withStack call.stack) v prints := by
  rw [ofCall_eq, ofAsyncCall_eq, TakenCall.effect_moved expands]
  rcases heffect : call.effect exe keywords with e | ⟨name, info, bindings⟩ | ⟨v, prints⟩
  · exact .inl ⟨e, rfl, rfl⟩
  · exact .inr (.inl ⟨name, info, bindings, TakenCall.function?_of_effect heffect, rfl, rfl⟩)
  · exact .inr (.inr ⟨v, prints, rfl, rfl⟩)

end Moved

end Teal
