import Teal.Proofs.Heights
import Teal.Proofs.History
import Teal.Proofs.Provenance

/-!
# Sessions of compiled code do not go wrong

Where code has heights, a session has exactly the values on its stack that its activations account
for: the latest one those of the place where it is, and each caller those of the place where it
goes on, but for the result it waits for. So no operation finds too few values, no jump leaves the
code, and a call that returns leaves the stack of its caller as it was, with one value more.

## Main definitions

* `Base`, `Session.Above`: what lies below a call, and a session that stands above it.
* `Session.Tidy`: what a session of compiled code looks like.

## Main statements

* `request_safe`: one instruction, in whatever world.
* `Scheduler.run_disciplined`: every run of a compiled program.
-/

namespace Teal

def Session.Stray (exe : Executable) (s : Session) : Prop :=
  ∃ name, exe.function? name = none ∧
    ((Builtin.ofName? name = none ∧ s.Holds (.function name)) ∨
      ∃ captured, s.Holds (.closure name captured))

/-! ## Activations and the stack -/

/-- What a call finds when it returns: where its caller goes on, and the stack and the activations
below it. -/
structure Base where
  returnIp : Option Nat := none
  stack : List Value := []
  activations : List Activation := []

def Base.Returned (base : Base) (t : Session) : Prop :=
  base.returnIp = some t.ip ∧ t.activations = base.activations ∧ ∃ v, t.stack = v :: base.stack

/-- Activations, of which the oldest one returns to `returnIp`, account for `lower` values below
those of the latest one: each caller for the values at the place where it goes on, but for the
result. -/
inductive Accounts (exe : Executable) (height : Nat → Nat) (returnIp : Option Nat) :
    List Activation → (lower : Nat) → Prop
  | last {a : Activation} : a.returnIp = returnIp → Accounts exe height returnIp [a] 0
  | caller {a : Activation} {callers : List Activation} {ip own lower : Nat} :
      a.returnIp = some ip → ip < exe.code.length → height ip = own + 1 →
      Accounts exe height returnIp callers lower →
      Accounts exe height returnIp (a :: callers) (own + lower)

/-- A session stands above a base: its activations account for the values it has there. -/
def Session.Above (exe : Executable) (height : Nat → Nat) (base : Base) (s : Session) : Prop :=
  s.ip < exe.code.length ∧ ∃ activations values lower,
    s.activations = activations ++ base.activations ∧ s.stack = values ++ base.stack ∧
    values.length = height s.ip + lower ∧ Accounts exe height base.returnIp activations lower

theorem Accounts.ne_nil {exe : Executable} {height : Nat → Nat} {returnIp : Option Nat}
    {activations : List Activation} {lower : Nat}
    (h : Accounts exe height returnIp activations lower) : activations ≠ [] := by
  cases h <;> simp

/-- Of the latest activation only the place to return to is accounted for. -/
theorem Accounts.rebind {exe : Executable} {height : Nat → Nat} {returnIp : Option Nat}
    {a : Activation} {callers : List Activation} {lower : Nat}
    (h : Accounts exe height returnIp (a :: callers) lower) (bindings : Bindings) :
    Accounts exe height returnIp ({ a with bindings } :: callers) lower := by
  cases h with
  | last hip => exact .last hip
  | caller hip hlt hheight below => exact .caller hip hlt hheight below

namespace Session.Above

variable {exe : Executable} {height : Nat → Nat} {base : Base} {s t : Session} {op : Op}

/-- A session above a base is deeper. -/
theorem deeper (h : s.Above exe height base) : base.activations.length < s.activations.length := by
  obtain ⟨-, activations, values, lower, hacts, -, -, haccounts⟩ := h
  have hpos := List.length_pos_iff.mpr haccounts.ne_nil
  rw [hacts, List.length_append]
  omega

theorem activations_ne_nil (h : s.Above exe height base) :
    ∃ latest rest, s.activations = latest :: rest := by
  have hlt := h.deeper
  cases hacts : s.activations with
  | nil => simp [hacts] at hlt
  | cons latest rest => exact ⟨latest, rest, rfl⟩

/-- There are enough values for an operation that fits. -/
theorem enough (h : s.Above exe height base) (fits : op.Fits exe height exe.code.length s.ip) :
    op.pops ≤ s.stack.length := by
  obtain ⟨-, activations, values, lower, -, hstack, hlen, -⟩ := h
  have henough := fits.enough
  rw [hstack, List.length_append]
  omega

/-- A session goes on inside of its function. -/
theorem move (h : s.Above exe height base) (fits : op.Fits exe height exe.code.length s.ip)
    {offset : Int} (hoffset : offset ∈ op.offsets) (hip : (t.ip : Int) = s.ip + offset)
    (hacts : t.activations = s.activations) (pushed : List Value)
    (hpushed : pushed.length = op.pushes) (hstack : t.stack = pushed ++ s.stack.drop op.pops) :
    t.Above exe height base := by
  obtain ⟨target, htarget, hlt, hheight⟩ := fits.next hoffset
  obtain rfl : target = t.ip := by omega
  obtain ⟨-, activations, values, lower, hacts', hstack', hlen, haccounts⟩ := h
  have henough := fits.enough
  refine ⟨hlt, activations, pushed ++ values.drop op.pops, lower, hacts.trans hacts', ?_, ?_,
    haccounts⟩
  · rw [hstack, hstack', List.drop_append_of_le_length (by omega), List.append_assoc]
  · rw [List.length_append, List.length_drop, hpushed]
    omega

/-- A session goes on at the next instruction. -/
theorem advance (h : s.Above exe height base) (fits : op.Fits exe height exe.code.length s.ip)
    (hoffsets : op.offsets = [1]) (pushed : List Value) (hpushed : pushed.length = op.pushes) :
    (s.advance.withStack (pushed ++ s.stack.drop op.pops)).Above exe height base :=
  h.move fits (by simp [hoffsets] : (1 : Int) ∈ op.offsets) rfl rfl pushed hpushed rfl

/-- A session binds a name in its latest activation. -/
theorem rebind (h : s.Above exe height base) {latest : Activation} {callers : List Activation}
    (ha : s.activations = latest :: callers) (bindings : Bindings) :
    Session.Above exe height base
      { s with activations := { latest with bindings } :: callers } := by
  obtain ⟨hlt, activations, values, lower, hacts, hstack, hlen, haccounts⟩ := h
  cases activations with
  | nil => exact absurd rfl haccounts.ne_nil
  | cons a rest =>
    obtain ⟨rfl, rfl⟩ := List.cons.inj (ha.symm.trans hacts)
    exact ⟨hlt, _, values, lower, rfl, hstack, hlen, haccounts.rebind _⟩

/-- A session enters a function. -/
theorem enter (h : s.Above exe height base) (fits : op.Fits exe height exe.code.length s.ip)
    (hoffsets : op.offsets = [1]) (hpushes : op.pushes = 1) {ip : Nat} (hip : ip < exe.code.length)
    (hheight : height ip = 0) {a : Activation} (ha : a.returnIp = some (s.ip + 1))
    (htip : t.ip = ip) (hacts : t.activations = a :: s.activations)
    (hstack : t.stack = s.stack.drop op.pops) : t.Above exe height base := by
  obtain ⟨target, htarget, hlt, hheight'⟩ := fits.next (by simp [hoffsets] : (1 : Int) ∈ op.offsets)
  obtain rfl : target = s.ip + 1 := by omega
  obtain ⟨-, activations, values, lower, hacts', hstack', hlen, haccounts⟩ := h
  have henough := fits.enough
  subst htip
  refine ⟨hip, a :: activations, values.drop op.pops, (height s.ip - op.pops) + lower, ?_, ?_, ?_,
    .caller ha hlt (by omega) haccounts⟩
  · rw [hacts, hacts', List.cons_append]
  · rw [hstack, hstack', List.drop_append_of_le_length (by omega)]
  · rw [List.length_drop]
    omega

/-- A session that has just entered a function stands above its caller. -/
theorem entered {ip : Nat} (hip : ip < exe.code.length) (hheight : height ip = 0)
    {a : Activation} (ha : a.returnIp = base.returnIp) (htip : t.ip = ip)
    (hacts : t.activations = a :: base.activations) (hstack : t.stack = base.stack) :
    t.Above exe height base := by
  subst htip
  exact ⟨hip, [a], [], 0, hacts, hstack, by simp [hheight], .last ha⟩

end Session.Above

/-! ## Calls -/

section Calls

variable {exe : Executable} {s : Session} {keywords : List Value} {e : MachineError}

def AreKeywords (keywords : List Value) : Prop :=
  ∀ k ∈ keywords, k = .null ∨ ∃ name, k = .symbol name

theorem takeCall_cons {n : Nat} {callee : Value} {rest : List Value} (h : n ≤ rest.length) :
    takeCall n (callee :: rest) = .ok ⟨callee, (rest.take n).reverse, rest.drop n⟩ := by
  have hneg : ¬ (n : Int) < 0 := by omega
  simp [takeCall, hneg, Nat.not_lt.mpr h]

/-- A call takes its arguments off a stack that has enough values. -/
theorem takeCall_of_le {n : Nat} {stack : List Value} (h : n + 1 ≤ stack.length) :
    ∃ call, takeCall n stack = .ok call ∧ call.callee ∈ stack ∧ call.args.length = n ∧
      call.stack = stack.drop (n + 1) := by
  cases stack with
  | nil => simp at h
  | cons callee rest =>
    have hlen : n ≤ rest.length := by simpa using h
    exact ⟨_, takeCall_cons hlen, by simp, by simp [hlen], by simp⟩

theorem Claims.add_internal {function : String} {params : List String} {c : Claims}
    {arg keyword : Value} (hk : keyword = .null ∨ ∃ name, keyword = .symbol name)
    (h : c.add function params arg keyword = .error e) : e.isInternal = false := by
  rcases hk with rfl | ⟨name, rfl⟩
  · cases h
  · simp only [Claims.add] at h
    split at h
    · cases h; rfl
    · split at h <;> cases h
      rfl

theorem Claims.addAll_internal {function : String} {params : List String} {c : Claims}
    {entries : List (Value × Value)}
    (hk : ∀ entry ∈ entries, entry.2 = .null ∨ ∃ name, entry.2 = .symbol name)
    (h : c.addAll function params entries = .error e) : e.isInternal = false := by
  induction entries generalizing c with
  | nil => cases h
  | cons entry rest ih =>
    simp only [Claims.addAll, bind, Except.bind] at h
    split at h
    · next hc =>
      cases h
      exact Claims.add_internal (hk entry (by simp)) hc
    · exact ih (fun entry he => hk entry (by simp [he])) h

theorem argumentBindings_internal {function : String} {params : List String} {captured : Bindings}
    {args : List Value} (hlen : args.length = keywords.length) (hk : AreKeywords keywords)
    (h : argumentBindings function params captured args keywords = .error e) :
    e.isInternal = false := by
  have hkeywords (entry : Value × Value) (he : entry ∈ args.zip keywords) :
      entry.2 = .null ∨ ∃ name, entry.2 = .symbol name :=
    hk entry.2 (List.of_mem_zip he).2
  simp only [argumentBindings, bind, Except.bind, hlen, ne_eq, not_true_eq_false, if_false] at h
  split at h
  · next hc =>
    cases h
    exact Claims.addAll_internal hkeywords hc
  · split at h <;> cases h
    rfl

/-- Only a function that the program does not know cannot be resolved. -/
theorem resolve_internal {callee : Value} (hcallee : callee ∈ s.stack)
    (h : Callee.resolve exe callee = .error e) (he : e.isInternal) : s.Stray exe := by
  have held : s.Holds callee := .inl ⟨callee, hcallee, .self⟩
  cases callee with
  | function name =>
    simp only [Callee.resolve] at h
    split at h
    · cases h
    · cases h
    · next hf hb => exact ⟨name, hf, .inl ⟨hb, held⟩⟩
  | closure name captured =>
    simp only [Callee.resolve] at h
    split at h
    · cases h
    · next hf => exact ⟨name, hf, .inr ⟨captured, held⟩⟩
  | _ =>
    cases h
    cases he

theorem resolve_compiled {callee : Value} {name : String} {info : FunctionEntry}
    {captured : Bindings} (h : Callee.resolve exe callee = .ok (.compiled name info captured)) :
    exe.function? name = some info := by
  cases callee with
  | function name' =>
    simp only [Callee.resolve] at h
    split at h <;> cases h
    assumption
  | closure name' captured' =>
    simp only [Callee.resolve] at h
    split at h <;> cases h
    assumption
  | _ => cases h

/-- A call that enters a function enters one of the program. -/
theorem TakenCall.function?_of_effect {call : TakenCall} {name : String} {info : FunctionEntry}
    {b : Bindings} (h : call.effect exe keywords = .ok (.enters name info b)) :
    exe.function? name = some info := by
  obtain ⟨captured, hres, -⟩ := bindings_of_effect h
  exact resolve_compiled hres

/-- A call of compiled code fails internally only for want of a function. -/
theorem TakenCall.stray_of_effect {call : TakenCall} (hcallee : call.callee ∈ s.stack)
    (hlen : call.args.length = keywords.length) (hk : AreKeywords keywords)
    (h : call.effect exe keywords = .error e) (he : e.isInternal) : s.Stray exe := by
  rcases error_of_effect h with hres | ⟨function, params, captured, hb⟩ | ⟨name, b, hb⟩
  · exact resolve_internal hcallee hres he
  · simp [argumentBindings_internal hlen hk hb] at he
  · simp [(Builtin.error_of_call hb).2] at he

namespace Session.Above

variable {height : Nat → Nat} {base : Base} {op : Op} {count : Int}

/-- A session above a base has what its instruction needs. -/
theorem not_lacks (h : s.Above exe height base)
    (fits : op.Fits exe height exe.code.length s.ip) : ¬ s.Lacks op := by
  have henough := h.enough fits
  obtain ⟨latest, rest, hacts⟩ := h.activations_ne_nil
  intro lacks
  cases op <;> simp_all [Session.Lacks, Op.pops]
  omega

/-- A call takes its operands off the stack. -/
theorem operands (h : s.Above exe height base) (fits : op.Fits exe height exe.code.length s.ip)
    (hop : op = .call count keywords ∨ op = .asyncCall count keywords) :
    AreKeywords keywords ∧ ∃ call, takeCall count s.stack = .ok call ∧ call.callee ∈ s.stack ∧
      call.args.length = keywords.length ∧ call.stack = s.stack.drop op.pops := by
  have sane : count = keywords.length ∧ AreKeywords keywords := by
    rcases hop with rfl | rfl <;> exact fits.sane
  obtain ⟨rfl, hk⟩ := sane
  have hpops : op.pops = keywords.length + 1 := by rcases hop with rfl | rfl <;> simp [Op.pops]
  rw [hpops]
  exact ⟨hk, takeCall_of_le (hpops ▸ h.enough fits)⟩

end Session.Above

end Calls

/-! ## Instructions -/

/-- What a request makes of a session above a base: it stays above it, returns to it or ends at it,
and it fails internally only for want of a function. -/
def Request.Safe (exe : Executable) (height : Nat → Nat) (base : Base) (s : Session) :
    Request → Prop
  | .goOn t _ => t.Above exe height base ∨ base.Returned t
  | .halt t _ =>
    base.returnIp = none ∧ t.stack = base.stack ∧ t.activations = base.activations
  | .fail _ e => e.isInternal → s.Stray exe
  | .spawn t ip first => (∀ v, (t.push v).Above exe height base) ∧
    ip < exe.code.length ∧ height ip = 0 ∧ first.returnIp = none
  | .settle t _ _ => ∀ v, (t.push v).Above exe height base
  | .await t _ rest => ∀ v, (t.advance.withStack (v :: rest)).Above exe height base

section Instructions

variable {exe : Executable} {height : Nat → Nat} {base : Base} {s t : Session} {i : Instruction}

/-- A value is returned to the caller, or to what is below the session. -/
theorem safe_ret (h : s.Above exe height base) (hlast : height s.ip = 1) :
    (Request.ofOp exe s .ret).Safe exe height base s := by
  obtain ⟨-, activations, values, lower, hacts, hstack, hlen, haccounts⟩ := h
  cases values with
  | nil => simp only [List.length_nil] at hlen; omega
  | cons v values =>
    rw [List.length_cons] at hlen
    simp only [Request.ofOp, execute, hstack, List.cons_append, returnValue]
    cases haccounts with
    | @last a hip =>
      obtain rfl : values = [] := List.length_eq_zero_iff.mp (by omega)
      simp only [hacts, List.cons_append, List.nil_append, hip]
      cases hreturn : base.returnIp with
      | none => exact ⟨hreturn, rfl, rfl⟩
      | some ip => exact .inr ⟨hreturn, rfl, v, rfl⟩
    | @caller a callers ip own lower hip hlt hheight haccounts =>
      simp only [hacts, List.cons_append, hip]
      have hlen' : (v :: values).length = height ip + lower := by
        rw [List.length_cons]
        omega
      exact .inl ⟨hlt, callers, v :: values, lower, rfl, rfl, hlen', haccounts⟩

/-- A jump that fits stays inside of the code. -/
theorem Op.Fits.lands {op : Op} (fits : op.Fits exe height exe.code.length s.ip) {offset : Int}
    {r : Except MachineError Nat} (hj : jumpTarget exe s.ip offset = r)
    (hoffset : offset ∈ op.offsets) :
    ∃ target : Nat, r = .ok target ∧ (target : Int) = s.ip + offset := by
  obtain ⟨target, htarget, hlt, -⟩ := fits.next hoffset
  exact ⟨target, hj ▸ jumpTarget_of_lt htarget.symm hlt, htarget⟩

/-- One instruction of a session above a base, in whatever world it is executed. -/
theorem Request.ofOp_safe (balanced : exe.Balanced height) (h : s.Above exe height base) {op : Op}
    (fits : op.Fits exe height exe.code.length s.ip) :
    (Request.ofOp exe s op).Safe exe height base s := by
  have taken {count : Int} {keywords : List Value} {call : TakenCall}
      (hop : op = .call count keywords ∨ op = .asyncCall count keywords)
      (htake : takeCall count s.stack = .ok call) :
      AreKeywords keywords ∧ call.callee ∈ s.stack ∧ call.args.length = keywords.length ∧
        call.stack = s.stack.drop op.pops := by
    obtain ⟨hk, call', htake', operands⟩ := h.operands fits hop
    obtain rfl := Except.ok.inj (htake.symm.trans htake')
    exact ⟨hk, operands⟩
  have rule := Request.rule_ofOp exe s op
  generalize hr : Request.ofOp exe s op = r at rule ⊢
  cases rule with
  | underflow lacks => exact absurd lacks (h.not_lacks fits)
  | pushValue | pushBinding | closure => exact .inl (h.advance fits rfl [_] rfl)
  | unbound hl =>
    intro internal
    simp [error_of_lookup hl, MachineError.isInternal] at internal
  | unknown hf => exact absurd fits.sane (by simp [Op.Sane, hf])
  | @bind _ v _ _ _ hs ha =>
    exact .inl ((h.rebind ha _).move fits (List.mem_singleton.mpr rfl) rfl rfl [v] rfl
      (by simp [hs, Op.pops, Session.advance]))
  | pop hs => exact .inl (by simpa [hs, Op.pops] using h.advance fits rfl [] rfl)
  | jump hj =>
    obtain ⟨target, ⟨⟩, htarget⟩ := fits.lands hj (List.mem_singleton.mpr rfl)
    exact .inl (h.move fits (List.mem_singleton.mpr rfl) htarget rfl [] rfl rfl)
  | badJump hj =>
    obtain ⟨target, hok, -⟩ := fits.lands hj (List.mem_singleton.mpr rfl)
    cases hok
  | @jumpIf offset _ _ _ hs _ hj =>
    have hoffset : offset ∈ (Op.jumpIf offset).offsets := by simp [Op.offsets]
    obtain ⟨target, ⟨⟩, htarget⟩ := fits.lands hj hoffset
    exact .inl (h.move fits hoffset htarget rfl [] rfl (by simp [hs, Op.pops]))
  | badJumpIf _ hj =>
    obtain ⟨target, hok, -⟩ := fits.lands hj (by simp [Op.offsets])
    cases hok
  | @pass offset _ _ hs =>
    have hnext : 1 ∈ (Op.jumpIf offset).offsets := by simp [Op.offsets]
    exact .inl (h.move fits hnext rfl rfl [] rfl (by simp [hs, Op.pops, Session.withStack]))
  | untaken hop htake =>
    obtain ⟨-, call, htake', -⟩ := h.operands fits hop
    cases htake.symm.trans htake'
  | refused hop htake heffect =>
    obtain ⟨hk, hcallee, hlen, -⟩ := taken hop htake
    exact TakenCall.stray_of_effect hcallee hlen hk heffect
  | entered htake heffect =>
    obtain ⟨-, -, -, hstack⟩ := taken (.inl rfl) htake
    obtain ⟨hlt, hheight⟩ := balanced.entry (TakenCall.function?_of_effect heffect)
    exact .inl (h.enter fits rfl rfl hlt hheight rfl rfl rfl hstack)
  | given htake =>
    obtain ⟨-, -, -, hstack⟩ := taken (.inl rfl) htake
    exact .inl (hstack ▸ h.advance fits rfl [_] rfl)
  | started htake heffect =>
    obtain ⟨-, -, -, hstack⟩ := taken (.inr rfl) htake
    obtain ⟨hlt, hheight⟩ := balanced.entry (TakenCall.function?_of_effect heffect)
    exact ⟨fun v => hstack ▸ h.advance fits rfl [v] rfl, hlt, hheight, rfl⟩
  | settled htake =>
    obtain ⟨-, -, -, hstack⟩ := taken (.inr rfl) htake
    exact fun v => hstack ▸ h.advance fits rfl [v] rfl
  | await hs => exact fun v => by simpa [hs, Op.pops] using h.advance fits rfl [v] rfl
  | ready hs => exact .inl (by simpa [hs, Op.pops] using h.advance fits rfl [_] rfl)
  | back | halt => exact hr ▸ safe_ret h (fits.last rfl)
  | operate hs => exact .inl (by simpa [hs, Op.pops] using h.advance fits rfl [_] rfl)
  | misapplied _ ha =>
    intro internal
    simp [(Operator.error_of_apply ha).2] at internal

/-- One step of a session above a base. -/
theorem request_safe (balanced : exe.Balanced height) (h : s.Above exe height base) :
    (request exe s).Safe exe height base s := by
  obtain ⟨i, hi⟩ : ∃ i, exe.instruction? s.ip = some i :=
    ⟨_, List.getElem?_eq_getElem h.1⟩
  simp only [request, hi]
  exact Request.ofOp_safe balanced h (balanced.fits hi)

/-- A state that follows is above the base still, unless the call has returned. -/
theorem Session.Follows.above (balanced : exe.Balanced height) (h : s.Above exe height base)
    (hf : s.Follows exe t) : t.Above exe height base ∨ base.Returned t := by
  have safe := request_safe balanced h
  cases hf with
  | goOn hr =>
    rw [hr] at safe
    exact safe
  | spawn hr id =>
    rw [hr] at safe
    exact .inl (safe.1 _)
  | settle hr id =>
    rw [hr] at safe
    exact .inl (safe _)
  | resume hr v =>
    rw [hr] at safe
    exact .inl (safe v)
  | wait hr => exact .inl h

def Base.ofCall (s : Session) (call : TakenCall) : Base :=
  ⟨some (s.ip + 1), call.stack, s.activations⟩

/-- A session at a call has its operands, and goes on above what the call returns to, unless it has
returned at once. -/
theorem Session.Above.call (balanced : exe.Balanced height) (h : s.Above exe height base)
    {count : Int} {keywords : List Value} (hi : exe.instruction? s.ip = some i)
    (hop : i.op = .call count keywords) :
    ∃ call, takeCall count s.stack = .ok call ∧ ∀ t, s.Follows exe t →
      t.Above exe height (.ofCall s call) ∨ (Base.ofCall s call).Returned t := by
  obtain ⟨-, call, htake, -⟩ := h.operands (balanced.fits hi) (.inl hop)
  refine ⟨call, htake, fun t hf => ?_⟩
  have hr : request exe s = Request.ofCall exe s call keywords := by
    simp only [request, hi, hop, Request.ofOp, htake]
  rw [Request.ofCall_eq] at hr
  split at hr
  · exact absurd hr hf.ne_fail
  · next name info bindings heffect =>
    obtain rfl := hf.eq_of_goOn hr
    obtain ⟨hlt, hheight⟩ := balanced.entry (TakenCall.function?_of_effect heffect)
    exact .inl (.entered hlt hheight rfl rfl rfl rfl)
  · next v prints _ =>
    obtain rfl := hf.eq_of_goOn hr
    exact .inr ⟨rfl, rfl, v, rfl⟩

end Instructions

/-! ## Runs -/

/-- A call returns: of the states after it, the first that is not deeper than its caller has the
stack of the caller below the operands of the call, with one value on it. -/
theorem returned_of_chain {exe : Executable} {height : Nat → Nat} (balanced : exe.Balanced height)
    {states : List Session} (chain : states.IsChain (Session.Follows exe)) {s : Session}
    {call : TakenCall} {k : Nat} (hs : states[k]? = some s)
    (hcall : ∀ t, s.Follows exe t →
      t.Above exe height (.ofCall s call) ∨ (Base.ofCall s call).Returned t)
    {j : Nat} {t : Session} (ht : states[k + 1 + j]? = some t)
    (hdeeper : ∀ i u, i < j → states[k + 1 + i]? = some u →
      s.activations.length < u.activations.length) :
    t.Above exe height (.ofCall s call) ∨ (Base.ofCall s call).Returned t := by
  have follows {k : Nat} {s t : Session} (hs : states[k]? = some s)
      (ht : states[k + 1]? = some t) : s.Follows exe t := by
    obtain ⟨hk, rfl⟩ := List.getElem?_eq_some_iff.mp hs
    obtain ⟨hk', rfl⟩ := List.getElem?_eq_some_iff.mp ht
    exact List.isChain_iff_getElem.mp chain k hk'
  -- induction on the states since the call: until it returns, all of them are above its base
  induction j generalizing t with
  | zero => exact hcall t (follows hs ht)
  | succ j ih =>
    obtain ⟨hk, -⟩ := List.getElem?_eq_some_iff.mp ht
    obtain ⟨u, hu⟩ : ∃ u, states[k + 1 + j]? = some u :=
      ⟨_, List.getElem?_eq_getElem (Nat.lt_of_succ_lt hk)⟩
    have above := ih hu fun i v hi hv => hdeeper i v (by omega) hv
    rcases above with above | ⟨-, hacts, -⟩
    · exact Session.Follows.above balanced above (follows hu ht)
    · have := hdeeper j u (by omega) hu
      simp [hacts, Base.ofCall] at this

/-- What a session of compiled code looks like: while it can run, its activations account for its
whole stack, and when it has halted nothing is left. -/
structure Session.Tidy (exe : Executable) (height : Nat → Nat) (s : Session) : Prop where
  above : s.isOver = false → s.Above exe height {}
  halted : s.status = .halted → s.stack = [] ∧ s.activations = []

namespace Session.Tidy

variable {exe : Executable} {height : Nat → Nat} {s : Session}

theorem of_running (hrun : s.status = .running) (h : s.Above exe height {}) :
    s.Tidy exe height :=
  ⟨fun _ => h, fun hhalted => by simp [hrun] at hhalted⟩

theorem entered {ip : Nat} {first : Activation} (hlt : ip < exe.code.length)
    (hheight : height ip = 0) (hfirst : first.returnIp = none) (id : TaskId) :
    Session.Tidy exe height { id, ip, activations := [first] } :=
  of_running rfl (.entered hlt hheight hfirst rfl rfl rfl)

theorem invariant (balanced : exe.Balanced height) :
    Session.Invariant exe (Session.Tidy exe height) := by
  have above {s : Session} (h : s.Tidy exe height) (hrun : s.status = .running) :
      s.Above exe height {} := h.above (Session.isOver_of_running hrun)
  constructor
  case mark => exact fun h hover => .of_running rfl (h.above hover)
  case follows =>
    intro s t h hrun hf
    refine .of_running (hf.status.trans hrun) ?_
    rcases hf.above balanced (above h hrun) with h | ⟨hreturn, -⟩
    · exact h
    · cases hreturn
  case new =>
    intro s t ip first h hrun hr id
    have safe := request_safe balanced (above h hrun)
    rw [hr] at safe
    obtain ⟨-, hlt, hheight, hfirst⟩ := safe
    exact .entered hlt hheight hfirst id
  case suspend =>
    intro s task rest h hrun hr
    exact ⟨fun _ => h.above (Session.isOver_of_running hrun), nofun⟩
  case halt =>
    intro s t v h hrun hr
    have safe := request_safe balanced (above h hrun)
    rw [hr] at safe
    exact ⟨nofun, fun _ => safe.2⟩
  case fail =>
    intro s message hfailed
    exact ⟨fun hover => by simp [Session.isOver, hfailed] at hover,
      fun hhalted => by simp [hfailed] at hhalted⟩

end Session.Tidy

/-- Functions, closures and futures stand for something in the program that made them. -/
def Value.isReference : Value → Bool
  | .function _ | .closure _ _ | .future _ => true
  | _ => false

/-- A constant of code with heights is no reference. -/
theorem Executable.Balanced.isReference_of_mentions {exe : Executable} {height : Nat → Nat}
    (balanced : exe.Balanced height) {u : Value} (h : exe.Mentions u) : u.isReference = false := by
  obtain ⟨i, hi, v, hop, hpart⟩ := h
  obtain ⟨ip, hip⟩ := List.getElem?_of_mem hi
  have sane := (balanced.fits hip).sane
  rw [hop] at sane
  cases v <;> simp_all [Op.Sane, Value.isPlain, Value.isReference]

namespace Scheduler

variable {program : List Expr} {exe : Executable} {settings : MachineSettings} {entry : String}
  {args : List Value} {c d : Scheduler} {id x : TaskId} {o : Outcome} {height : Nat → Nat}

/-- Where arguments and constants are no references, no session holds a function that the program
does not know. -/
theorem not_stray {V : View} {s : Session} (balanced : exe.Balanced height)
    (hargs : ∀ u : Value, u.Within args → u.isReference = false)
    (drawn : V.Drawn exe fun u => u.Within args) (hs : V.session x = some s) : ¬ s.Stray exe := by
  have plain {u : Value} (hu : exe.CannotMake u) (href : u.isReference)
      (hfuture : ∀ k, u ≠ .future k) : ¬ s.Holds u := by
    intro hold
    rcases drawn u hu (View.mentions_of_holds hs hold) with h | h | ⟨k, -, h⟩
    · simp [hargs u h] at href
    · simp [balanced.isReference_of_mentions h] at href
    · exact hfuture k h
  rintro ⟨name, hf, ⟨hb, hold⟩ | ⟨captured, hold⟩⟩
  · exact plain (.function hf hb) rfl nofun hold
  · exact plain (.closure hf captured) rfl nofun hold

/-- A quantum of compiled code does not fail internally. -/
theorem quantum_internal (balanced : c.executable.Balanced height)
    (uniform : c.Uniform (Session.Tidy c.executable height))
    (hargs : ∀ u : Value, u.Within args → u.isReference = false)
    (draws : c.Draws fun u => u.Within args) (unblocked : c.Unblocked)
    (hq : c.quantum = some ((id, o), d)) {e : MachineError} (ho : o = .failed e) :
    e.isInternal = false := by
  subst ho
  obtain ⟨s, n, V, hs, hsteps, hc, -, sound, hrun⟩ := quantum_sound_spec uniform.sound hq
  have all := uniform.steps (Session.Tidy.invariant balanced) hq hs hsteps
  have drawn := draws.steps hs hsteps
  have known := (unblocked.quantum_error hq · [])
  generalize d.world.view = V' at hc
  cases hc with
  | @failed queue s' t _ hq' hs' hf =>
    cases hf with
    | itself hr =>
      have above := (all hs').above (hrun.isOver hs')
      have safe := request_safe balanced above
      rw [hr] at safe
      exact Bool.eq_false_iff.mpr fun he => not_stray balanced hargs drawn hs' (safe he)
    | awaited => rfl
    | @unknown task => exact absurd rfl (known task).1

/-- A compiled program cannot go wrong internally. However it is called, with arguments that are no
references, and whatever the length of a slice is: no session fails for want of a value, a place
in the code, a function, a task or a session, nor because of the shape of an instruction; a session
that has halted leaves no values and no activations; and a call that returns leaves the stack of
its caller as it was below the operands of the call, with one value on it. -/
theorem run_disciplined (hcompile : compile program = .ok exe)
    (hargs : ∀ u : Value, u.Within args → u.isReference = false)
    (h : start { executable := exe, settings } entry args = .ok (id, c)) (n : Nat) :
    (∀ x e, (x, .failed e) ∈ (c.quanta n).1 → e.isInternal = false) ∧
      (∀ x s, (c.run n).world.session? x = some s → s.status = .halted →
        s.stack = [] ∧ s.activations = []) ∧
      ∀ x k s i count keywords, (c.history x n)[k]? = some s →
        exe.instruction? s.ip = some i → i.op = .call count keywords →
        ∃ call, takeCall count s.stack = .ok call ∧
          ∀ j t, (c.history x n)[k + 1 + j]? = some t →
            (∀ i u, i < j → (c.history x n)[k + 1 + i]? = some u →
              s.activations.length < u.activations.length) →
            t.activations.length ≤ s.activations.length →
            t.ip = s.ip + 1 ∧ t.activations = s.activations ∧ ∃ v, t.stack = v :: call.stack := by
  obtain ⟨height, balanced⟩ := Executable.exists_balanced hcompile
  have hfutures (v : Value) (hv : v ∈ args) : v.FutureFree := by
    intro t hpart
    exact absurd (hargs _ ⟨v, hv, hpart⟩) (by simp [Value.isReference])
  have uniform (n : Nat) := run_all (Session.Tidy.invariant balanced) h
    (fun info bindings hf => .entered (balanced.entry hf).1 (balanced.entry hf).2 rfl 0) n
  have unblocked := Unblocked.start (futureFree_of_compile hcompile) hfutures h
  refine ⟨fun x e hfailed => ?_, fun x s hs => ((uniform n).2.all hs).halted, ?_⟩
  · obtain ⟨m, d, -, hq⟩ := mem_quanta hfailed
    obtain ⟨hexe, uniform⟩ := uniform m
    exact quantum_internal (hexe ▸ balanced) (hexe.symm ▸ uniform) hargs (run_drawn h m)
      (unblocked.run m) hq rfl
  · intro x k s i count keywords hs hi hop
    obtain ⟨hexe, uniform⟩ : c.executable = exe ∧ c.Uniform (Session.Tidy exe height) := uniform 0
    obtain ⟨chain, -⟩ := history_chain uniform.sound x n
    obtain ⟨tidy, hrun⟩ := history_all (hexe.symm ▸ Session.Tidy.invariant balanced) uniform
      (List.mem_of_getElem? hs)
    rw [hexe] at chain
    obtain ⟨call, htake, hcall⟩ :=
      (tidy.above (Session.isOver_of_running hrun)).call balanced hi hop
    refine ⟨call, htake, fun j t ht hdeeper hdepth => ?_⟩
    rcases returned_of_chain balanced chain hs hcall ht hdeeper with above | ⟨hip, hacts, hstack⟩
    · have := above.deeper
      simp only [Base.ofCall] at this
      omega
    · exact ⟨(Option.some.inj hip).symm, hacts, hstack⟩

def increments : List Expr :=
  let loc : Location := ⟨"", 1, 1, ""⟩
  [.definition loc "main" []
      (.binary loc (.calculate .add) (.literal loc (.integer 10))
        (.call loc (.ident loc "next") [.literal loc (.integer 1)])) none,
    .definition loc "next" ["n"]
      (.binary loc (.calculate .add) (.ident loc "n") (.literal loc (.integer 1))) none]

/-- With slices of two steps the call in `increments` is cut twice; when it returns, ten is below
its value as it was below its operands. -/
theorem run_disciplined_increments : ∃ exe c s t, compile increments = .ok exe ∧
    start { executable := exe, settings := { stepLimit := 2 } } "main" [] = .ok (0, c) ∧
    (∀ x e, (x, .failed e) ∈ (c.quanta 5).1 → e.isInternal = false) ∧
    (c.history 0 5)[3]? = some s ∧ s.stack = [.function "next", .integer 1, .integer 10] ∧
    (c.history 0 5)[8]? = some t ∧ t.ip = s.ip + 1 ∧ t.activations = s.activations ∧
    ∃ v, t.stack = [v, .integer 10] := by
  obtain ⟨exe, c, s, t, i, hcompile, h, hs, hi, hop, hstack, ht, hdepth, hbetween⟩ :
      ∃ exe c s t i, compile increments = .ok exe ∧
        start { executable := exe, settings := { stepLimit := 2 } } "main" [] = .ok (0, c) ∧
        (c.history 0 5)[3]? = some s ∧ exe.instruction? s.ip = some i ∧
        i.op = .call 1 [.null] ∧ s.stack = [.function "next", .integer 1, .integer 10] ∧
        (c.history 0 5)[8]? = some t ∧ t.activations.length = s.activations.length ∧
        (((c.history 0 5).drop 4).take 4).all fun u =>
          s.activations.length < u.activations.length :=
    ⟨_, _, _, _, _, rfl, rfl, rfl, rfl, rfl, rfl, rfl, rfl, rfl⟩
  obtain ⟨internal, -, returns⟩ := run_disciplined hcompile (by simp) h 5
  obtain ⟨call, htake, hreturn⟩ := returns 0 3 s i 1 [.null] hs hi hop
  have deeper (k : Nat) (u : Session) (hk : k < 4) (hu : (c.history 0 5)[3 + 1 + k]? = some u) :
      s.activations.length < u.activations.length := by
    have hmem : u ∈ ((c.history 0 5).drop 4).take 4 := by
      refine List.mem_of_getElem? (i := k) ?_
      rw [List.getElem?_take_of_lt hk, List.getElem?_drop]
      exact hu
    simpa using List.all_eq_true.mp hbetween u hmem
  obtain ⟨hip, hacts, v, hv⟩ := hreturn 4 t ht deeper (Nat.le_of_eq hdepth)
  rw [hstack] at htake
  cases htake
  exact ⟨exe, c, s, t, hcompile, h, internal, hs, hstack, ht, hip, hacts, v, hv⟩

end Scheduler

end Teal
