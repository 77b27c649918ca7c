import Mathlib.Data.List.Lattice
import Teal.Proofs.Discipline

/-!
# Entrances of functions

A function is entered with bindings in which each parameter has its argument, whatever was captured
under its name. The code of a nested definition then binds the definition's own name, before the
body: so a parameter of that name has lost its argument when the body begins, and every other
parameter has it still. This is so for calls in a session and for those that become a task, however
the slices of the sessions fall.

## Main definitions

* `TakenCall.Binds`: a call stands for a function and gives it bindings.
* `Session.Begins`: a session is about to evaluate the body of a function.

## Main statements

* `argumentBindings_bound`: every parameter is bound to an argument.
* `Scheduler.history_spawn`: what a new task begins with.
* `Scheduler.parameters_hold`: the parameters of a body that begins.
-/

namespace Teal

/-! ## Parameters and arguments -/

/-- A name that is bound to an argument is so after further names are bound to arguments, and each
of these is bound. -/
theorem bindAll_bound {args : List Value} {name : String} {entries : List (String × Value)}
    {bindings : Bindings} (hargs : ∀ entry ∈ entries, entry.2 ∈ args)
    (h : name ∈ entries.map Prod.fst ∨ ∃ v ∈ args, bindings.get? name = some v) :
    ∃ v ∈ args, (bindAll bindings entries).get? name = some v := by
  induction entries generalizing bindings with
  | nil => simpa [bindAll] using h
  | cons entry rest ih =>
    obtain ⟨hentry, hrest⟩ := List.forall_mem_cons.mp hargs
    have hcons : bindAll bindings (entry :: rest) =
        bindAll (bindings.insert entry.1 entry.2) rest := rfl
    rw [hcons]
    apply ih hrest
    by_cases hname : entry.1 = name
    · exact .inr ⟨entry.2, hentry, by rw [← hname, Table.get?_insert_self]⟩
    · rw [Table.get?_insert, if_neg hname]
      simpa [Ne.symm hname] using h

namespace Claims

variable {function : String} {params : List String} {c d : Claims} {args : List Value}

/-- The parameters that keywords have taken are bound to arguments, and no argument is made up. -/
structure Backed (args : List Value) (c : Claims) : Prop where
  bound : ∀ name ∈ c.claimed, ∃ v ∈ args, c.bindings.get? name = some v
  given : ∀ v ∈ c.positional, v ∈ args

theorem Backed.add {arg keyword : Value} (h : c.Backed args) (harg : arg ∈ args)
    (hadd : c.add function params arg keyword = .ok d) : d.Backed args := by
  have named (name : String) : Backed args
      { c with claimed := c.claimed ++ [name], bindings := c.bindings.insert name arg } := by
    refine ⟨fun other hother => ?_, h.given⟩
    rw [Table.get?_insert]
    split
    · exact ⟨arg, harg, rfl⟩
    · have := h.bound other
      grind
  unfold Claims.add at hadd
  split at hadd
  · cases hadd
    exact ⟨h.bound, by simpa [or_imp, forall_and] using ⟨h.given, harg⟩⟩
  · grind
  · grind
  · cases hadd

theorem Backed.addAll {entries : List (Value × Value)} (h : c.Backed args)
    (hargs : ∀ entry ∈ entries, entry.1 ∈ args)
    (hadd : c.addAll function params entries = .ok d) : d.Backed args := by
  induction entries generalizing c with
  | nil =>
    cases hadd
    exact h
  | cons entry rest ih =>
    obtain ⟨hentry, hrest⟩ := List.forall_mem_cons.mp hargs
    simp only [Claims.addAll] at hadd
    cases hfirst : c.add function params entry.1 entry.2 with
    | error e => simp [hfirst, bind, Except.bind] at hadd
    | ok next =>
      simp only [hfirst, bind, Except.bind] at hadd
      exact ih (h.add hentry hfirst) hrest hadd

end Claims

/-- When arguments fit the parameters, every parameter is bound to one of them: what was captured
under its name is hidden. -/
theorem argumentBindings_bound {function : String} {params : List String}
    {captured bindings : Bindings} {args keywords : List Value}
    (h : argumentBindings function params captured args keywords = .ok bindings) :
    ∀ param ∈ params, ∃ v ∈ args, bindings.get? param = some v := by
  simp only [argumentBindings] at h
  split at h
  · cases h
  cases hadd : Claims.addAll function params { bindings := captured } (args.zip keywords) with
  | error e => simp [hadd, bind, Except.bind] at h
  | ok c =>
    simp only [hadd, bind, Except.bind] at h
    split at h
    · cases h
    · next hopen =>
      cases h
      have hbacked : c.Backed args := by
        have hstart : Claims.Backed args { bindings := captured } := ⟨by simp, by simp⟩
        exact hstart.addAll (fun entry hentry => (List.of_mem_zip hentry).1) hadd
      intro param hparam
      refine bindAll_bound (fun entry hentry => ?_) ?_
      · exact hbacked.given _ (List.of_mem_zip hentry).2
      · by_cases hclaimed : param ∈ c.claimed
        · exact .inr (hbacked.bound param hclaimed)
        · -- a parameter that no keyword has taken is still open
          rw [List.map_fst_zip (by omega), Claims.openParams, ← List.diff_eq_foldl]
          exact .inl (List.mem_diff_of_mem hparam hclaimed)

/-! ## What a new task begins with -/

section Slice

variable {exe : Executable} {w w' : World} {s s' t u : Session} {o : Outcome} {budget k ip : Nat}
  {first : Activation} {y : TaskId}

/-- Steps of a session take new ids only. -/
theorem nextId_le_step (exe : Executable) (w : World) (s : Session) :
    w.nextId ≤ (step exe w s).world.nextId := by
  rw [step_eq_perform]
  cases request exe s with
  | spawn | settle => exact Nat.le_succ _
  | await t task rest =>
    simp only [Request.perform, await, World.enlist]
    split <;> first | exact Nat.le_refl _ | (split <;> exact Nat.le_refl _)
  | _ => exact Nat.le_refl _

/-- Steps of a session leave the sessions of its world. -/
theorem session?_step (hy : y < w.nextId) : (step exe w s).world.session? y = w.session? y := by
  rw [step_eq_perform]
  cases request exe s with
  | spawn t ip first =>
    have hworld : ((Request.spawn t ip first).perform w).world = (w.spawn ip first).2 := rfl
    rw [hworld, World.session?_spawn, Function.update_of_ne (Nat.ne_of_lt hy)]
  | await t task rest =>
    simp only [Request.perform, await, World.enlist]
    split <;> first | rfl | (split <;> rfl)
  | _ => rfl

theorem session?_slice (exe : Executable) (budget : Nat) (s : Session) (hy : y < w.nextId) :
    (slice exe budget w s).1.session? y = w.session? y := by
  induction budget generalizing w s with
  | zero => rfl
  | succ budget ih =>
    simp only [slice]
    split
    · exact (ih _ (Nat.lt_of_lt_of_le hy (nextId_le_step exe w s))).trans (session?_step hy)
    all_goals exact session?_step hy

/-- A session that asks for a new task has its future next, and the session of the task stands in
the world at the end of the slice as it was made. -/
theorem slice_spawn (h : slice exe budget w s = (w', s', o))
    (ht : (sliceStates exe budget w s)[k]? = some t) (hr : request exe t = .spawn u ip first) :
    ∃ y, w.nextId ≤ y ∧ w'.session? y = some { id := y, ip, activations := [first] } ∧
      (∀ t', (sliceStates exe budget w s)[k + 1]? = some t' → t' = u.push (.future y)) ∧
      ((sliceStates exe budget w s)[k + 1]? = none →
        o = .preempted ∧ s' = u.push (.future y)) := by
  induction budget generalizing w s k with
  | zero => cases ht
  | succ budget ih =>
    cases k with
    | zero =>
      obtain rfl : s = t := by simpa [sliceStates] using ht
      have hstep : step exe w s = .goOn (w.spawn ip first).2 (u.push (.future w.nextId)) := by
        rw [step_eq_perform, hr]
        rfl
      simp only [slice, sliceStates, hstep, Turn.goOn] at h ⊢
      have hnew : w.nextId < (w.spawn ip first).2.nextId := Nat.lt_succ_self _
      have hkept := session?_slice exe budget (u.push (.future w.nextId)) hnew
      rw [h, World.session?_spawn, Function.update_self] at hkept
      refine ⟨w.nextId, Nat.le_refl _, hkept, fun t' ht' => ?_, fun hnone => ?_⟩
      · exact head?_sliceStates (List.head?_eq_getElem? ▸ ht')
      · cases budget with
        | zero =>
          cases h
          exact ⟨rfl, rfl⟩
        | succ budget => simp [sliceStates] at hnone
    | succ k =>
      cases hsig : (step exe w s).signal with
      | next =>
        simp only [slice, sliceStates, hsig, List.getElem?_cons_succ] at h ht ⊢
        obtain ⟨y, hy, hrest⟩ := ih h ht
        exact ⟨y, Nat.le_trans (nextId_le_step exe w s) hy, hrest⟩
      | _ => simp [sliceStates, hsig] at ht

end Slice

/-- Where a session starts no tasks and waits for none, its states are those that it leads to. -/
theorem eq_of_leads {exe : Executable} {states : List Session}
    (chain : states.IsChain (Session.Follows exe)) {m k : Nat} {s t t' : Session}
    (hs : states[k]? = some s) (h : Leads exe m s t) (ht : states[k + m]? = some t') : t' = t := by
  induction h generalizing k with
  | refl => simpa [hs, eq_comm] using ht
  | @head m s t u prints hr _ ih =>
    have hlt : k + 1 < states.length := by
      obtain ⟨hlt, -⟩ := List.getElem?_eq_some_iff.mp ht
      omega
    obtain ⟨hk, rfl⟩ := List.getElem?_eq_some_iff.mp hs
    have hnext : states[k + 1]? = some (t.print prints) := by
      rw [List.getElem?_eq_getElem hlt,
        (List.isChain_iff_getElem.mp chain k hlt).eq_of_goOn hr]
    exact ih hnext (by rwa [Nat.add_assoc, Nat.add_comm 1 m])

namespace Scheduler

variable {c d : Scheduler} {s u : Session} {id x : TaskId} {o : Outcome} {n k ip : Nat}
  {first : Activation}

/-- After a quantum in which a session asked for a new task, the session of the task stands in the
world as it was made. The future came next, in the quantum or where it was cut off. -/
theorem states_spawn (sound : c.world.view.Sound) (hq : c.quantum = some ((id, o), d))
    (hs : c.states[k]? = some s) (hr : request c.executable s = .spawn u ip first) :
    ∃ y, c.world.nextId ≤ y ∧ d.world.session? y = some { id := y, ip, activations := [first] } ∧
      (∀ t, c.states[k + 1]? = some t → t = u.push (.future y)) ∧
      (c.states[k + 1]? = none →
        d.world.session? id = some (u.push (.future y)) ∧ u.status = .running) := by
  obtain ⟨s₀, hs₀, -, hover, -⟩ := quantum_runs sound hq
  obtain ⟨w, w', s', hturn, hslice, hbefore, -, hsessions⟩ := quantum_slice hq hs₀ hover
  have hstates : c.states = sliceStates c.executable (max c.settings.stepLimit 1) w
      { s₀ with status := .running } := by
    simp [states, hturn]
  obtain ⟨y, hy, hsession, hnext, hlast⟩ := slice_spawn hslice (hstates ▸ hs) hr
  rw [hbefore] at hy
  have hne : y ≠ id := Nat.ne_of_gt (Nat.lt_of_lt_of_le (sound.fits hs₀).below hy)
  refine ⟨y, hy, by rw [hsessions, Function.update_of_ne hne, hsession], hstates ▸ hnext,
    fun hnone => ?_⟩
  obtain ⟨rfl, rfl⟩ := hlast (hstates ▸ hnone)
  have hend : c.states.length = k + 1 := by
    obtain ⟨hlt, -⟩ := List.getElem?_eq_some_iff.mp hs
    have := List.getElem?_eq_none_iff.mp hnone
    omega
  have hfinal : s ∈ c.states.getLast? := by
    rw [List.getLast?_eq_getElem?, hend, Nat.add_sub_cancel, hs]
    rfl
  obtain ⟨-, hstatus⟩ := follows_slice hslice (.inl rfl) (hstates ▸ hfinal)
  exact ⟨by rw [hsessions, Function.update_self]; rfl, hstatus⟩

/-- A session that asks for a new task has its future next, and the task begins as it was asked
for. -/
theorem history_spawn (sound : c.world.view.Sound) (hs : (c.history x n)[k]? = some s)
    (hr : request c.executable s = .spawn u ip first) :
    ∃ y, c.world.nextId ≤ y ∧
      (∀ t, (c.history x n)[k + 1]? = some t → t = u.push (.future y)) ∧
      ∀ t ∈ (c.history y n).head?, t = { id := y, ip, activations := [first] } := by
  induction n generalizing c k with
  | zero => cases hs
  | succ n ih =>
    cases hq : c.quantum with
    | none => simp [history, hq] at hs
    | some next =>
      obtain ⟨⟨id, o⟩, d⟩ := next
      have sound' := quantum_sound sound hq
      have later (y : TaskId) (hy : c.world.nextId ≤ y) :
          c.history y (n + 1) = d.history y n := by
        obtain ⟨s₀, hs₀, -⟩ := quantum_runs sound hq
        have hne : id ≠ y := Nat.ne_of_lt (Nat.lt_of_lt_of_le (sound.fits hs₀).below hy)
        simp [history, hq, hne]
      have rest {k : Nat} (hs : (d.history x n)[k]? = some s) :
          ∃ y, c.world.nextId ≤ y ∧
            (∀ t, (d.history x n)[k + 1]? = some t → t = u.push (.future y)) ∧
            ∀ t ∈ (c.history y (n + 1)).head?, t = { id := y, ip, activations := [first] } := by
        obtain ⟨y, hy, hnext, hhead⟩ := ih sound' hs ((quantum_fields hq).1.symm ▸ hr)
        have hnew := Nat.le_trans (quantum_nextId sound hq) hy
        exact ⟨y, hnew, hnext, later y hnew ▸ hhead⟩
      by_cases hx : id = x
      · subst hx
        have hhistory : c.history id (n + 1) = c.states ++ d.history id n := by simp [history, hq]
        rw [hhistory] at hs ⊢
        rcases Nat.lt_or_ge k c.states.length with hk | hk
        · rw [List.getElem?_append_left hk] at hs
          obtain ⟨y, hy, hmade, hnext, hlast⟩ := states_spawn sound hq hs hr
          refine ⟨y, hy, fun t ht => ?_, fun t ht => ?_⟩
          · rcases Nat.lt_or_ge (k + 1) c.states.length with hlt | hge
            · rw [List.getElem?_append_left hlt] at ht
              exact hnext t ht
            · -- the session was cut off after the request, and goes on in a later quantum
              obtain ⟨hstored, hrun⟩ := hlast (List.getElem?_eq_none hge)
              have hfirst : k + 1 - c.states.length = 0 := by omega
              rw [List.getElem?_append_right hge, hfirst, ← List.head?_eq_getElem?] at ht
              rw [((history_chain sound' id n).2 _ hstored t ht).1]
              exact Session.eq_of_running hrun
          · rw [later y hy] at ht
            exact ((history_chain sound' y n).2 _ hmade t ht).1
        · obtain ⟨j, rfl⟩ := Nat.exists_eq_add_of_le hk
          rw [List.getElem?_append_right hk, Nat.add_sub_cancel_left] at hs
          rw [List.getElem?_append_right (by omega), Nat.add_assoc, Nat.add_sub_cancel_left]
          exact rest hs
      · have hhistory : c.history x (n + 1) = d.history x n := by simp [history, hq, hx]
        rw [hhistory] at hs ⊢
        exact rest hs

end Scheduler

/-! ## Entrances -/

/-- A call stands for a function of a program and gives it bindings. -/
def TakenCall.Binds (call : TakenCall) (exe : Executable) (keywords : List Value) (name : String)
    (info : FunctionEntry) (bindings : Bindings) : Prop :=
  ∃ captured, Callee.resolve exe call.callee = .ok (.compiled name info captured) ∧
    argumentBindings name info.params captured call.args keywords = .ok bindings

/-- A session is about to evaluate the body of a function whose code is at `location`, and every
parameter has its argument, except one that has the own name of the function. -/
structure Session.Begins (exe : Executable) (r : Region) (location : Nat) (args : List Value)
    (bindings : Bindings) (s : Session) : Prop where
  ip : s.ip = location + r.function.prologue
  code : exe.Has s.ip (r.function.body.code r.next)
  scope : s.bindings? = some (r.function.activate bindings)
  bound : ∀ param ∈ r.function.params, r.function.itself ≠ some param →
    ∃ v ∈ args, bindings.get? param = some v ∧
      (r.function.activate bindings).get? param = some v
  itself : ∀ name, r.function.itself = some name →
    (r.function.activate bindings).get? name = some (.closure r.function.name bindings)

theorem Function.get?_activate {f : Function} {param : String} (h : f.itself ≠ some param)
    (bindings : Bindings) : (f.activate bindings).get? param = bindings.get? param := by
  unfold Function.activate
  split
  · next name hname => rw [Table.get?_insert, if_neg (by rintro rfl; exact h hname)]
  · rfl

/-- The code of a function leads to its body. -/
theorem Session.begins_of_frame {exe : Executable} {r : Region} {location : Nat}
    (hname : (exe.function? r.function.name).isSome) (hcode : exe.Has location r.code) {F : Frame}
    {stack args : List Value} {bindings : Bindings} {lines : List String}
    (hbound : ∀ param ∈ r.function.params, ∃ v ∈ args, bindings.get? param = some v) :
    ∃ t, Leads exe r.function.prologue (F.at location stack ⟨bindings, lines⟩) t ∧
      t.Begins exe r location args bindings ∧ t.stack = stack ∧ t.activations.tail = F.callers := by
  obtain ⟨hbody, prologue⟩ := leads_prologue hname hcode
  refine ⟨_, prologue F stack bindings lines, ⟨rfl, hbody.left, rfl, fun param hparam hne => ?_,
    fun name hitself => ?_⟩, rfl, rfl⟩
  · obtain ⟨v, hv, hget⟩ := hbound param hparam
    exact ⟨v, hv, hget, (r.function.get?_activate hne bindings).trans hget⟩
  · simp only [Function.activate, hitself, Table.get?_insert_self]

namespace Scheduler

variable {program : List Expr} {exe : Executable} {settings : MachineSettings} {entry : String}
  {args : List Value} {c : Scheduler} {id x : TaskId}

/-- When the body of a function begins, every parameter has its argument, in a call and in a task
that was started; but a nested definition of a parameter's name has taken its place. -/
theorem parameters_hold (hcompile : compile program = .ok exe)
    (h : start { executable := exe, settings } entry args = .ok (id, c)) {n k : Nat} {s : Session}
    (hs : (c.history x n)[k]? = some s) {i : Instruction} (hi : exe.instruction? s.ip = some i)
    {count : Int} {keywords : List Value} {call : TakenCall}
    (htake : takeCall count s.stack = .ok call) {name : String} {info : FunctionEntry}
    {bindings : Bindings} (hbinds : call.Binds exe keywords name info bindings) :
    ∃ r ∈ numberedFunctions program, r.function.name = name ∧ r.function.params = info.params ∧
      (i.op = .call count keywords →
        ∀ t, (c.history x n)[k + 1 + r.function.prologue]? = some t →
          t.Begins exe r info.location call.args bindings ∧ t.stack = call.stack ∧
            t.activations.tail = s.activations) ∧
      (i.op = .asyncCall count keywords →
        ∃ y, (∀ t, (c.history x n)[k + 1]? = some t → t.stack = .future y :: call.stack) ∧
          ∀ t, (c.history y n)[r.function.prologue]? = some t →
            t.Begins exe r info.location call.args bindings ∧ t.stack = [] ∧
              t.activations.tail = []) := by
  obtain ⟨captured, hresolve, hbindings⟩ := hbinds
  have hinfo := resolve_compiled hresolve
  obtain ⟨-, rfl⟩ := programError?_of_compile hcompile
  obtain ⟨a, r, b, hsplit, rfl, rfl⟩ := Executable.exists_region hinfo
  have hcode : (Executable.link (numberedFunctions program)).Has
      (a.flatMap Region.code).length r.code := hsplit ▸ Executable.has_link a r b
  have hname := Option.isSome_iff_exists.mpr ⟨_, hinfo⟩
  have hbound := argumentBindings_bound hbindings
  have hexe : c.executable = Executable.link (numberedFunctions program) :=
    (start_view h).choose_spec.choose_spec.2.2.2.1
  have sound := start_sound h
  have chain (x : TaskId) := hexe ▸ (history_chain sound x n).1
  refine ⟨r, hsplit ▸ by simp, rfl, rfl, fun hop t ht => ?_, fun hop => ?_⟩
  · let F : Frame := ⟨s.id, s.status, s.result, r.function.name, some (s.ip + 1), s.activations⟩
    have hr : request (Executable.link (numberedFunctions program)) s =
        .goOn (F.at (a.flatMap Region.code).length call.stack ⟨bindings, s.output⟩) [] := by
      simp only [request, hi, hop, Request.ofOp, htake, Request.ofCall, hresolve, hbindings]
      rfl
    obtain ⟨t', leads, begins⟩ := Session.begins_of_frame hname hcode hbound
    rw [Nat.add_assoc] at ht
    rwa [eq_of_leads (chain x) hs ((Leads.one hr).trans leads) ht]
  · have hr : request (Executable.link (numberedFunctions program)) s =
        .spawn (s.advance.withStack call.stack) (a.flatMap Region.code).length
          { function := r.function.name, bindings } := by
      simp only [request, hi, hop, Request.ofOp, htake, Request.ofAsyncCall, hresolve, hbindings]
      rfl
    obtain ⟨y, -, hnext, hhead⟩ := history_spawn sound hs (hexe.symm ▸ hr)
    refine ⟨y, fun t ht => by rw [hnext t ht]; rfl, fun t ht => ?_⟩
    let F : Frame := ⟨y, .running, none, r.function.name, none, []⟩
    have hfirst : (c.history y n)[0]? =
        some (F.at (a.flatMap Region.code).length [] ⟨bindings, []⟩) := by
      obtain ⟨hlt, -⟩ := List.getElem?_eq_some_iff.mp ht
      obtain ⟨first, hfirst⟩ : ∃ first, (c.history y n)[0]? = some first :=
        ⟨_, List.getElem?_eq_getElem (Nat.zero_lt_of_lt hlt)⟩
      rw [hfirst, hhead first (by rwa [List.head?_eq_getElem?])]
      rfl
    obtain ⟨t', leads, begins⟩ := Session.begins_of_frame hname hcode hbound
    have ht' : (c.history y n)[0 + r.function.prologue]? = some t := by rwa [Nat.zero_add]
    rwa [eq_of_leads (chain y) hfirst leads ht']

/-- A program that defines a function with a parameter of its own name, calls it and starts a task
for it. -/
def selfNamed : List Expr :=
  let loc : Location := ⟨"", 1, 1, ""⟩
  let call (a b : Int64) : Expr := .call loc (.ident loc "f")
    [(Expr.literal loc (.integer a)).positional, (Expr.literal loc (.integer b)).positional]
  [.definition loc "main" []
    (.block loc [.definition loc "f" ["f", "n"] (.ident loc "n") none, call 5 6,
      .async loc (call 7 8)]) none]

/-- In `selfNamed` the second parameter has its argument when the body begins, in the call and in
the task; the first stands for the function itself. -/
theorem parameters_hold_selfNamed : ∃ exe c s t q r, compile selfNamed = .ok exe ∧
    start { executable := exe, settings := {} } "main" [] = .ok (0, c) ∧
    (c.history 0 2)[10]? = some s ∧ (c.history 1 2)[3]? = some t ∧
    q.function.params = ["f", "n"] ∧ r.function.params = ["f", "n"] ∧
    s.Begins exe q 13 [.integer 5, .integer 6] [("f", .integer 5), ("n", .integer 6)] ∧
    t.Begins exe r 13 [.integer 7, .integer 8] [("f", .integer 7), ("n", .integer 8)] := by
  obtain ⟨exe, c, s, t, u, s', t', i, j, info, hcompile, h, hs, ht, hu, hs', ht', hi, hj, hop,
      hop', hstack, hstack', hlast, hinfo, hparams, hlocation⟩ :
      ∃ exe c s t u s' t' i j info, compile selfNamed = .ok exe ∧
        start { executable := exe, settings := {} } "main" [] = .ok (0, c) ∧
        (c.history 0 2)[6]? = some s ∧ (c.history 0 2)[16]? = some t ∧
        (c.history 0 2)[16 + 1]? = some u ∧
        (c.history 0 2)[6 + 1 + 3]? = some s' ∧ (c.history 1 2)[3]? = some t' ∧
        exe.instruction? s.ip = some i ∧ exe.instruction? t.ip = some j ∧
        i.op = .call 2 [.null, .null] ∧ j.op = .asyncCall 2 [.null, .null] ∧
        s.stack = [.closure "f:0" [], .integer 6, .integer 5] ∧
        t.stack = [.closure "f:0" [], .integer 8, .integer 7] ∧ u.stack = [.future 1] ∧
        exe.function? "f:0" = some info ∧ info.params = ["f", "n"] ∧ info.location = 13 :=
    ⟨_, _, _, _, _, _, _, _, _, _, rfl, rfl, rfl, rfl, rfl, rfl, rfl, rfl, rfl, rfl, rfl, rfl, rfl,
      rfl, rfl, rfl, rfl⟩
  have binds (a b : Int64) : TakenCall.Binds ⟨.closure "f:0" [], [.integer a, .integer b], []⟩ exe
      [.null, .null] "f:0" info [("f", .integer a), ("n", .integer b)] :=
    ⟨[], by simp [Callee.resolve, hinfo], by
      have hlt : ¬ "n" < "f" := by decide
      rw [hparams]
      simp [argumentBindings, Claims.addAll, Claims.add, Claims.openParams, bindAll, Table.insert,
        bind, Except.bind, hlt]⟩
  have take (a b : Int64) : takeCall 2 [.closure "f:0" [], .integer b, .integer a] =
      .ok ⟨.closure "f:0" [], [.integer a, .integer b], []⟩ := rfl
  have prologue : ∀ r ∈ numberedFunctions selfNamed, r.function.name = "f:0" →
      r.function.prologue = 3 := by decide
  obtain ⟨q, hq, hqname, hqparams, call, -⟩ := parameters_hold hcompile h hs hi
    (hstack ▸ take 5 6) (binds 5 6)
  obtain ⟨r, hr, hrname, hrparams, -, async⟩ := parameters_hold hcompile h ht hj
    (hstack' ▸ take 7 8) (binds 7 8)
  obtain ⟨y, hy, task⟩ := async hop'
  have hfuture := hy u hu
  rw [hlast] at hfuture
  cases hfuture
  refine ⟨exe, c, s', t', q, r, hcompile, h, hs', ht', hqparams.trans hparams,
    hrparams.trans hparams, ?_, ?_⟩
  · exact hlocation ▸ (call hop s' (prologue q hq hqname ▸ hs')).1
  · exact hlocation ▸ (task t' (prologue r hr hrname ▸ ht')).1

end Scheduler

end Teal
