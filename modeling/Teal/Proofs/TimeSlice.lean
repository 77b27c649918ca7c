import Mathlib.Data.Set.Function
import Teal.Proofs.Deadlock
import Teal.Proofs.Network
import Teal.Proofs.Rename

/-!
# The length of a slice does not matter

With slices of another length the sessions of a program take their turns in another order, start
their tasks under other numbers and find them settled at other times. A world shows a network,
whatever the order was: a quantum does some steps of the network, or none if its session has to
wait at once. Since all complete runs of a network are equally long and end alike, so do those of
the program.

## Main definitions

* `View.Shows`, `View.Realizes`: a view is a network with its tasks numbered.
* `Session.Agrees`, `Scheduler.EndsAlike`: two sessions, and two programs, ended alike.

## Main statements

* `View.Realizes.step`, `Scheduler.realizes_quantum`: a step and a quantum, seen in the network.
* `Scheduler.drain_of_timeSlice`: a program ends alike under any two lengths of a slice.
-/

namespace Teal

namespace View

/-- What a session has written, beside the log of its cell. All that it printed fulfils `P`. -/
def Logs (P : List Value → Prop) (ν : TaskId → TaskId) (V : View) (s : Session)
    (log : List (List Value)) : Prop :=
  ∃ printed : List (List Value), (∀ args ∈ printed, P args) ∧
    (∀ args ∈ printed, ∀ t, (Value.future t).Within args → t < V.nextId) ∧
    s.output = printed.map printLine ∧ log = printed.map (List.map (Value.rename ν))

/-- A task of a view, and how a network shows it under the names `ν`. -/
inductive Shows (P : List Value → Prop) (ν : TaskId → TaskId) (V : View) (t : TaskId) :
    Option Cell → Prop
  | missing (ht : V.task t = none) (hs : V.session t = none) : Shows P ν V t none
  | active {s : Session} {waiters : List TaskId} {n : Nat} {log : List (List Value)}
      (ht : V.task t = some (.pending waiters)) (hs : V.session t = some s)
      (hres : s.result = none) (hlog : V.Logs P ν s log) :
      Shows P ν V t (some (.active (s.image ν) n log))
  | halted {s : Session} {v : Value} {log : List (List Value)}
      (ht : V.task t = some (.resolved v)) (hs : V.session t = some s) (hlog : V.Logs P ν s log) :
      Shows P ν V t (some (.halted (v.rename ν) log))
  | failed {s : Session} {message : String} {log : List (List Value)}
      (ht : V.task t = some (.failed message)) (hs : V.session t = some s)
      (hres : s.result = none) (hlog : V.Logs P ν s log) : Shows P ν V t (some (.failed log))
  | settled {v : Value} (ht : V.task t = some (.resolved v)) (hs : V.session t = none) :
      Shows P ν V t (some (.settled (v.rename ν)))

/-- A view is a network whose names it numbers. The numbers to come are names that no task of a
network has. -/
structure Realizes (P : List Value → Prop) (ν : TaskId → TaskId) (V : View) (N : Network) :
    Prop where
  injective : Function.Injective ν
  even {t : TaskId} : t < V.nextId → ν t % 2 = 0
  odd {t : TaskId} : V.nextId ≤ t → ν t % 2 = 1
  dense {t : TaskId} : t < V.nextId → ∃ state, V.task t = some state
  cells (t : TaskId) : V.Shows P ν t (N (ν t))
  named {p : TaskId} {cell : Cell} : N p = some cell → ∃ t, ν t = p
  fresh : N.Fresh
  top : ∃ t, V.topLevel = some t ∧ t < V.nextId ∧ ν t = 0

section Frame

variable {P : List Value → Prop} {ν ν' : TaskId → TaskId} {V V' : View} {t : TaskId}
  {s : Session} {log : List (List Value)} {cell : Option Cell}

theorem Logs.frame (h : V.Logs P ν s log) (hn : V.nextId ≤ V'.nextId)
    (agree : ∀ u < V.nextId, ν u = ν' u) : V'.Logs P ν' s log := by
  obtain ⟨printed, hP, hknown, houtput, rfl⟩ := h
  refine ⟨printed, hP, fun args ha u hu => Nat.lt_of_lt_of_le (hknown args ha u hu) hn, houtput, ?_⟩
  refine List.map_congr_left fun args ha => List.map_congr_left fun v hv => ?_
  exact Value.rename_congr fun u hu => agree u (hknown args ha u ⟨v, hv, hu⟩)

/-- What a session prints is added to the log. -/
theorem Logs.print (h : V.Logs P ν s log) {prints : List (List Value)} {t : Session}
    (hout : t.output = s.output) (hP : ∀ args ∈ prints, P args)
    (hknown : ∀ args ∈ prints, ∀ u, (Value.future u).Within args → u < V.nextId) :
    V.Logs P ν (t.print prints) (log ++ prints.map (List.map (Value.rename ν))) := by
  obtain ⟨printed, hP', hknown', houtput, rfl⟩ := h
  refine ⟨printed ++ prints, ?_, ?_, ?_, by simp⟩
  · simpa [or_imp, forall_and] using ⟨hP', hP⟩
  · intro args ha
    rcases List.mem_append.mp ha with ha | ha
    · exact hknown' args ha
    · exact hknown args ha
  · simp [Session.print, hout, houtput]

theorem Logs.congr (h : V.Logs P ν s log) {t : Session} (hout : t.output = s.output) :
    V.Logs P ν t log := by
  obtain ⟨printed, hP, hknown, houtput, hlog⟩ := h
  exact ⟨printed, hP, hknown, hout.trans houtput, hlog⟩

/-- A task is shown alike while nobody touches it. Who waits for it does not matter. -/
theorem Shows.frame (h : V.Shows P ν t cell) (hs : V'.session t = V.session t)
    (ht : V'.task t = V.task t ∨ ∃ ws ws', V.task t = some (.pending ws) ∧
      V'.task t = some (.pending ws'))
    (hn : V.nextId ≤ V'.nextId) (agree : ∀ u < V.nextId, ν u = ν' u)
    (known : ∀ u, V.Holds t u → u < V.nextId) : V'.Shows P ν' t cell := by
  have same (h : ∀ ws, V.task t ≠ some (.pending ws)) : V'.task t = V.task t :=
    ht.resolve_right fun ⟨ws, _, hws, _⟩ => h ws hws
  cases h with
  | missing htask hsession =>
    exact .missing ((same (by simp [htask])).trans htask) (hs.trans hsession)
  | @active s waiters n log htask hsession hres hlog =>
    obtain ⟨ws, hws⟩ : ∃ ws, V'.task t = some (.pending ws) := by
      rcases ht with ht | ⟨-, ws, -, hws⟩
      · exact ⟨waiters, ht.trans htask⟩
      · exact ⟨ws, hws⟩
    have himage : s.image ν = s.image ν' :=
      Session.image_congr fun u hu => agree u (known u (.inl ⟨s, hsession, hu⟩))
    rw [himage]
    exact .active hws (hs.trans hsession) hres (hlog.frame hn agree)
  | @halted s v log htask hsession hlog =>
    have hv : v.rename ν = v.rename ν' :=
      Value.rename_congr fun u hu => agree u (known u (.inr ⟨v, htask, hu⟩))
    rw [hv]
    exact .halted ((same (by simp [htask])).trans htask) (hs.trans hsession) (hlog.frame hn agree)
  | failed htask hsession hres hlog =>
    exact .failed ((same (by simp [htask])).trans htask) (hs.trans hsession) hres
      (hlog.frame hn agree)
  | @settled v htask hsession =>
    have hv : v.rename ν = v.rename ν' :=
      Value.rename_congr fun u hu => agree u (known u (.inr ⟨v, htask, hu⟩))
    rw [hv]
    exact .settled ((same (by simp [htask])).trans htask) (hs.trans hsession)

/-- A task that is shown is one of the view. -/
theorem Shows.task_eq_some {cell : Cell} (h : V.Shows P ν t (some cell)) :
    ∃ state, V.task t = some state := by
  cases h with
  | active ht | halted ht | failed ht | settled ht => exact ⟨_, ht⟩

end Frame

namespace Realizes

variable {P : List Value → Prop} {ν : TaskId → TaskId} {V V' : View} {N : Network} {id : TaskId}
  {s : Session}

theorem known (sound : V.Sound) (ranked : V.Ranked) {t u : TaskId} (h : V.Holds t u) :
    u < V.nextId := by
  obtain ⟨state, hstate⟩ := ranked.known h
  exact sound.taskBelow hstate

/-- The network does not notice who waits and in what order sessions run. -/
theorem frame (h : Realizes P ν V N) (sound : V.Sound) (ranked : V.Ranked)
    (hn : V'.nextId = V.nextId) (htop : V'.topLevel = V.topLevel)
    (tasks : ∀ t, V'.task t = V.task t ∨ ∃ ws ws', V.task t = some (.pending ws) ∧
      V'.task t = some (.pending ws'))
    (cells : ∀ t, V'.session t = V.session t ∨ V'.Shows P ν t (N (ν t))) : Realizes P ν V' N where
  injective := h.injective
  even ht := h.even (hn ▸ ht)
  odd ht := h.odd (hn ▸ ht)
  dense {t} ht := by
    rcases tasks t with htask | ⟨-, ws, -, hws⟩
    · exact htask ▸ h.dense (hn ▸ ht)
    · exact ⟨_, hws⟩
  cells t := by
    rcases cells t with hs | hshow
    · exact (h.cells t).frame hs (tasks t) (Nat.le_of_eq hn.symm) (fun _ _ => rfl)
        fun u hu => known sound ranked hu
    · exact hshow
  named := h.named
  fresh := h.fresh
  top := by simpa only [hn, htop] using h.top

theorem agree_new {q : TaskId} (u : TaskId) (hu : u < V.nextId) :
    ν u = Function.update ν V.nextId q u := by
  rw [Function.update_of_ne (Nat.ne_of_lt hu)]

/-- The cell of a session that is not over. -/
theorem active_of_open (h : Realizes P ν V N) (sound : V.Sound) (hs : V.session id = some s)
    (hover : s.isOver = false) :
    ∃ n log waiters, N (ν id) = some (.active (s.image ν) n log) ∧
      V.task id = some (.pending waiters) ∧ s.result = none ∧ V.Logs P ν s log := by
  obtain ⟨waiters, htask⟩ := (sound.fits hs).pending.mpr hover
  have hshow := h.cells id
  generalize hcell : N (ν id) = cell at hshow
  cases hshow with
  | @active s' ws n log ht hs' hres hlog =>
    obtain rfl : s = s' := by simpa [hs] using hs'
    exact ⟨n, log, waiters, rfl, htask, hres, hlog⟩
  | missing ht | halted ht | failed ht | settled ht => simp [htask] at ht

/-- A session that is not over is marked as running. -/
theorem mark (h : Realizes P ν V N) (sound : V.Sound) (ranked : V.Ranked)
    (hs : V.session id = some s) (hover : s.isOver = false) :
    Realizes P ν (V.put id { s with status := .running }) N := by
  obtain ⟨n, log, waiters, hcell, htask, hres, hlog⟩ := h.active_of_open sound hs hover
  refine h.frame sound ranked rfl rfl (fun t => .inl rfl) fun t => ?_
  by_cases e : t = id
  · rw [e, hcell]
    exact .inr (.active (s := { s with status := .running }) htask (by simp) hres hlog)
  · exact .inl (by simp [e])

/-- One task makes a step and starts no other. -/
theorem fire {exe : Executable} (h : Realizes P ν V N) (sound : V.Sound) (ranked : V.Ranked)
    {old cell : Cell} (hold : N (ν id) = some old)
    (hnext : N.next exe (ν id) old = some (cell, none)) (own : V'.Shows P ν id (some cell))
    (hn : V'.nextId = V.nextId) (htop : V'.topLevel = V.topLevel)
    (others : ∀ t, t ≠ id → V'.session t = V.session t ∧ V'.task t = V.task t) :
    ∃ N', N.fire exe (ν id) = some N' ∧ Realizes P ν V' N' := by
  have hfire := Network.fire_of_next hold hnext
  have hput (t : TaskId) : N.put (ν id) (cell, none) (ν t) =
      if t = id then some cell else N (ν t) := by
    simp [Network.put, h.injective.eq_iff]
  refine ⟨_, hfire, h.injective, fun ht => h.even (hn ▸ ht), fun ht => h.odd (hn ▸ ht), ?_, ?_, ?_,
    h.fresh.fire hfire, by simpa only [hn, htop] using h.top⟩
  · intro t ht
    by_cases e : t = id
    · exact e ▸ own.task_eq_some
    · exact (others t e).2 ▸ h.dense (hn ▸ ht)
  · intro t
    rw [hput]
    split
    · next e => exact e ▸ own
    · next e =>
      exact (h.cells t).frame (others t e).1 (.inl (others t e).2) (Nat.le_of_eq hn.symm)
        (fun _ _ => rfl) fun u hu => known sound ranked hu
  · intro p c hc
    by_cases e : p = ν id
    · exact ⟨id, e.symm⟩
    · exact h.named (by simpa [Network.put, e] using hc)

/-- A name that no task has is that of no number: the numbers to come have odd names. -/
theorem ne_of_unused (h : Realizes P ν V N) {q : TaskId} (heven : q % 2 = 0) (unused : N q = none)
    (t : TaskId) : ν t ≠ q := by
  rintro rfl
  by_cases hlt : t < V.nextId
  · obtain ⟨state, hstate⟩ := h.dense hlt
    have hshow := h.cells t
    rw [unused] at hshow
    cases hshow with
    | missing htask => simp [htask] at hstate
  · have hodd := h.odd (Nat.le_of_not_lt hlt)
    rw [heven] at hodd
    cases hodd

/-- One task makes a step and starts another, which is named after it. -/
theorem start {exe : Executable} (h : Realizes P ν V N) (sound : V.Sound) (ranked : V.Ranked)
    (hid : id < V.nextId) {s' : Session} {n : Nat} {log : List (List Value)} {cell new : Cell}
    (hold : N (ν id) = some (.active s' n log))
    (hnext : N.next exe (ν id) (.active s' n log) =
      some (cell, some (Network.child (ν id) n, new)))
    (hn : V'.nextId = V.nextId + 1) (htop : V'.topLevel = V.topLevel)
    (others : ∀ t, t ≠ id → t ≠ V.nextId → V'.session t = V.session t ∧ V'.task t = V.task t)
    {ν' : TaskId → TaskId} (hν : ν' = Function.update ν V.nextId (Network.child (ν id) n))
    (own : V'.Shows P ν' id (some cell)) (started : V'.Shows P ν' V.nextId (some new)) :
    ∃ N', N.fire exe (ν id) = some N' ∧ Realizes P ν' V' N' := by
  have hfire := Network.fire_of_next hold hnext
  have unused := h.fresh.unused hold
  have hat (t : TaskId) : ν' t = if t = V.nextId then Network.child (ν id) n else ν t := by
    simp [hν, Function.update_apply]
  have agree (t : TaskId) (ht : t < V.nextId) : ν t = ν' t := by
    rw [hat, if_neg (Nat.ne_of_lt ht)]
  have hchild : Network.child (ν id) n % 2 = 0 := Nat.mul_mod_right 2 _
  have injective : Function.Injective ν' :=
    hν ▸ injective_update h.injective (h.ne_of_unused hchild unused) V.nextId
  have hput (t : TaskId) : N.put (ν id) (cell, some (Network.child (ν id) n, new)) (ν' t) =
      if t = id then some cell else if t = V.nextId then some new else N (ν t) := by
    have hid' : ν id = ν' id := agree id hid
    have hnew : Network.child (ν id) n = ν' V.nextId := by rw [hat, if_pos rfl]
    simp only [Network.put]
    rw [hnew, hid']
    simp only [injective.eq_iff]
    split
    · rfl
    · split
      · rfl
      · next ht => rw [hat, if_neg ht]
  have below {t : TaskId} (ht : t < V'.nextId) (e : t ≠ V.nextId) : t < V.nextId :=
    Nat.lt_of_le_of_ne (Nat.le_of_lt_succ (Nat.lt_of_lt_of_eq ht hn)) e
  refine ⟨_, hfire, injective, ?_, ?_, ?_, ?_, ?_, h.fresh.fire hfire, ?_⟩
  · intro t ht
    rw [hat]
    split
    · exact hchild
    · next e => exact h.even (below ht e)
  · intro t ht
    have hlt : V.nextId < t := Nat.lt_of_succ_le (Nat.le_trans (Nat.le_of_eq hn.symm) ht)
    rw [hat, if_neg (Nat.ne_of_gt hlt)]
    exact h.odd (Nat.le_of_lt hlt)
  · intro t ht
    by_cases e : t = id
    · exact e ▸ own.task_eq_some
    · by_cases e' : t = V.nextId
      · exact e' ▸ started.task_eq_some
      · exact (others t e e').2 ▸ h.dense (below ht e')
  · intro t
    rw [hput]
    split
    · next e => exact e ▸ own
    · next e =>
      split
      · next e' => exact e' ▸ started
      · next e' =>
        exact (h.cells t).frame (others t e e').1 (.inl (others t e e').2)
          (hn ▸ Nat.le_succ V.nextId) agree fun u hu => known sound ranked hu
  · intro p c hc
    by_cases e : p = ν id
    · exact ⟨id, by rw [← agree id hid, e]⟩
    · by_cases e' : p = Network.child (ν id) n
      · exact ⟨V.nextId, by rw [hat, if_pos rfl, e']⟩
      · have hc : N p = some c := by simpa [Network.put, e, e'] using hc
        obtain ⟨t, rfl⟩ := h.named hc
        refine ⟨t, ?_⟩
        rw [hat, if_neg]
        rintro rfl
        obtain ⟨state, ht⟩ := (hc ▸ h.cells V.nextId).task_eq_some
        simp [sound.fresh.2.1] at ht
  · obtain ⟨t, ht, hlt, hroot⟩ := h.top
    refine ⟨t, htop.trans ht, ?_, (agree t hlt).symm.trans hroot⟩
    exact Nat.lt_of_lt_of_eq (Nat.lt_succ_of_lt hlt) hn.symm

/-- A session that keeps the handle of a task that it started. -/
theorem image_push_new {t : Session} {q : TaskId} (h : ∀ u, t.Holds (.future u) → u < V.nextId) :
    (t.image ν).push (.future q) =
      (t.push (.future V.nextId)).image (Function.update ν V.nextId q) := by
  have himage : t.image ν = t.image (Function.update ν V.nextId q) :=
    Session.image_congr fun u hu => agree_new u (h u hu)
  rw [himage]
  simp [Session.image, Session.push]

theorem answer_of_resolved (h : Realizes P ν V N) {task : TaskId} {v : Value}
    (ht : V.task task = some (.resolved v)) :
    (N (ν task)).bind Cell.answer? = some (some (v.rename ν)) := by
  have hshow := h.cells task
  generalize N (ν task) = cell at hshow
  cases hshow with
  | @halted s v' log ht' =>
    obtain rfl : v = v' := by simpa [ht] using ht'
    rfl
  | @settled v' ht' =>
    obtain rfl : v = v' := by simpa [ht] using ht'
    rfl
  | missing ht' | active ht' | failed ht' => simp [ht] at ht'

theorem answer_of_failed (h : Realizes P ν V N) {task : TaskId} {message : String}
    (ht : V.task task = some (.failed message)) :
    (N (ν task)).bind Cell.answer? = some none := by
  have hshow := h.cells task
  generalize N (ν task) = cell at hshow
  cases hshow with
  | failed => rfl
  | missing ht' | active ht' | halted ht' | settled ht' => simp [ht] at ht'

/-- A step of the session that has its turn is a step of its task. -/
theorem step {exe : Executable} (hexe : exe.FutureFree) (h : Realizes P ν V N) (sound : V.Sound)
    (ranked : V.Ranked) (hrun : V.Running id) (hs : V.session id = some s)
    (hP : ∀ args ∈ (request exe s).prints, P args) (hstep : V.Step exe id V') :
    ∃ ν' N', N.fire exe (ν id) = some N' ∧ Realizes P ν' V' N' := by
  obtain ⟨n, log, waiters, hcell, htask, hres, hlog⟩ := h.active_of_open sound hs (hrun.isOver hs)
  have hreq := request_image h.injective hexe.not_mentions s
  have keeps := request_keeps exe s
  have below : id < V.nextId := (sound.fits hs).below
  -- what the request carries are handles of tasks that are there
  have hknown {u : TaskId} (hu : (request exe s).Holds (.future u)) : u < V.nextId :=
    known sound ranked (.inl ⟨s, hs, Session.holds_of_request hexe hu⟩)
  cases hstep with
  | @goOn s' t prints hs' hr =>
    obtain rfl : s = s' := by simpa [hs] using hs'
    rw [hr] at keeps hreq hP hknown
    have hnext : N.next exe (ν id) (.active (s.image ν) n log) = some (.active (t.image ν) n
        (log ++ prints.map (List.map (Value.rename ν))), none) := by
      simp [Network.next, hreq, Request.image]
    refine ⟨ν, h.fire sound ranked hcell hnext ?_ rfl rfl fun x hx => by simp [hx]⟩
    exact .active (s := t.print prints) htask (by simp) (keeps.result.trans hres)
      (hlog.print keeps.output hP fun args ha u hu => hknown (.inr (.inl ⟨args, ha, hu⟩)))
  | @spawn s' t ip first hs' hr =>
    obtain rfl : s = s' := by simpa [hs] using hs'
    rw [hr] at keeps hreq hknown
    have hnext : N.next exe (ν id) (.active (s.image ν) n log) =
        some (.active ((t.image ν).push (.future (Network.child (ν id) n))) (n + 1) log,
          some (Network.child (ν id) n,
            .active { id := 0, ip, activations := [first.rename ν] } 0 [])) := by
      simp [Network.next, hreq, Request.image]
    refine ⟨Function.update ν V.nextId (Network.child (ν id) n),
      h.start sound ranked below hcell hnext ?_ ?_ ?_ rfl ?_ ?_⟩
    · rfl
    · rfl
    · intro x hx hx'
      simp [hx, hx']
    · rw [image_push_new (t := t) fun u hu => hknown (.inl hu)]
      have htask' : (V.spawn ip first).task id = some (.pending waiters) := by
        simpa [Nat.ne_of_lt below] using htask
      exact .active htask' (by simp) (keeps.result.trans hres)
        ((hlog.frame (Nat.le_succ _) agree_new).congr keeps.output)
    · have hfirst : first.rename ν =
          first.rename (Function.update ν V.nextId (Network.child (ν id) n)) := by
        rw [Activation.rename, Bindings.rename_congr fun u hu => agree_new u (hknown
          (.inr (.inr hu))), Activation.rename]
      rw [hfirst]
      have htask' : (V.spawn ip first).task V.nextId = some (.pending []) := by simp
      exact .active (s := { id := V.nextId, ip, activations := [first] }) htask'
        (by simp [Nat.ne_of_gt below]) rfl ⟨[], by simp, by simp, rfl, rfl⟩
  | @settle s' t v prints hs' hr =>
    obtain rfl : s = s' := by simpa [hs] using hs'
    rw [hr] at keeps hreq hknown hP
    have hnext : N.next exe (ν id) (.active (s.image ν) n log) =
        some (.active ((t.image ν).push (.future (Network.child (ν id) n))) (n + 1)
          (log ++ prints.map (List.map (Value.rename ν))),
          some (Network.child (ν id) n, .settled (v.rename ν))) := by
      simp [Network.next, hreq, Request.image]
    refine ⟨Function.update ν V.nextId (Network.child (ν id) n),
      h.start sound ranked below hcell hnext ?_ ?_ ?_ rfl ?_ ?_⟩
    · rfl
    · rfl
    · intro x hx hx'
      simp [hx, hx']
    · rw [image_push_new (t := t) fun u hu => hknown (.inl hu)]
      have htask' : (V.addSettled v).task id = some (.pending waiters) := by
        simpa [Nat.ne_of_lt below] using htask
      have hlog' := hlog.print keeps.output hP fun args ha u hu =>
        hknown (.inr (.inl ⟨args, ha, hu⟩))
      exact .active (s := (t.push (.future V.nextId)).print prints) htask' (by simp)
        (keeps.result.trans hres) ((hlog'.frame (Nat.le_succ _) agree_new).congr rfl)
    · have hv : v.rename ν = v.rename (Function.update ν V.nextId (Network.child (ν id) n)) :=
        Value.rename_congr fun u hu => agree_new u (hknown (.inr (.inr hu)))
      rw [hv]
      exact .settled (by simp) (by simpa [Nat.ne_of_gt below] using sound.fresh.1)
  | @resume s' task rest v hs' hr ht =>
    obtain rfl : s = s' := by simpa [hs] using hs'
    rw [hr] at hreq
    have hanswer : (N (ν task)).bind Cell.answer? = some (some (v.rename ν)) :=
      h.answer_of_resolved ht
    have hnext : N.next exe (ν id) (.active (s.image ν) n log) =
        some (.active ((s.advance.withStack (v :: rest)).image ν) n log, none) := by
      simp only [Network.next, hreq, Request.image, hanswer]
      rfl
    refine ⟨ν, h.fire sound ranked hcell hnext ?_ rfl rfl fun x hx => by simp [hx]⟩
    exact .active (s := s.advance.withStack (v :: rest)) htask (by simp) hres (hlog.congr rfl)

theorem steps {exe : Executable} {n : Nat} {prints : List (List Value)} (hexe : exe.FutureFree)
    (h : Realizes P ν V N) (sound : V.Sound) (ranked : V.Ranked) (hrun : V.Running id)
    (hP : ∀ args ∈ prints, P args) (hsteps : View.Steps exe id n prints V V') :
    ∃ ν' N', Network.Runs exe n N N' ∧ Realizes P ν' V' N' := by
  induction hsteps generalizing ν N with
  | refl V => exact ⟨ν, N, .refl N, h⟩
  | head hs hstep _ ih =>
    rw [List.forall_mem_append] at hP
    obtain ⟨ν₁, N₁, hfire, h₁⟩ := h.step hexe sound ranked hrun hs hP.1 hstep
    obtain ⟨sound₁, hrun₁⟩ := sound.step hrun hstep
    obtain ⟨ν₂, N₂, hruns, h₂⟩ := ih h₁ sound₁ (ranked.step hexe sound hrun hstep) hrun₁ hP.2
    exact ⟨ν₂, N₂, .head hfire hruns, h₂⟩

/-- The end of a quantum is a step of a task if its session is over. -/
theorem concludes {exe : Executable} {o : Outcome} (hexe : exe.FutureFree) (h : Realizes P ν V N)
    (sound : V.Sound) (ranked : V.Ranked) (hrun : V.Running id)
    (hc : V.Concludes exe id o V') :
    ∃ k N', Network.Runs exe k N N' ∧ Realizes P ν V' N' ∧
      (k = 0 → o = .preempted ∨ ∃ task, o = .suspended task) := by
  cases hc with
  | preempted hq =>
    exact ⟨0, N, .refl N, h.frame sound ranked rfl rfl (fun t => .inl rfl) fun t => .inl rfl,
      fun _ => .inl rfl⟩
  | @halted queue s t v hq hs hr =>
    obtain ⟨n, log, waiters, hcell, htask, hres, hlog⟩ := h.active_of_open sound hs (hrun.isOver hs)
    have keeps := request_keeps exe s
    have hreq := request_image h.injective hexe.not_mentions s
    rw [hr] at keeps hreq
    have hnext : N.next exe (ν id) (.active (s.image ν) n log) =
        some (.halted (v.rename ν) log, none) := by
      simp [Network.next, hreq, Request.image]
    have own : (V.finish id { t with status := .halted, result := some v } (.resolved v)
        queue).Shows P ν id (some (.halted (v.rename ν) log)) :=
      .halted (s := { t with status := .halted, result := some v }) (by simp) (by simp)
        (hlog.congr keeps.output)
    obtain ⟨N', hfire, h'⟩ :=
      h.fire sound ranked hcell hnext own rfl rfl fun x hx => by simp [hx]
    exact ⟨1, N', .head hfire (.refl N'), h', by simp⟩
  | @failed queue s t e hq hs hf =>
    obtain ⟨n, log, waiters, hcell, htask, hres, hlog⟩ := h.active_of_open sound hs (hrun.isOver hs)
    have keeps := Sound.fails_keeps hf
    have hreq := request_image h.injective hexe.not_mentions s
    have hnext : N.next exe (ν id) (.active (s.image ν) n log) = some (.failed log, none) := by
      cases hf with
      | itself hr => simp [Network.next, hreq, hr, Request.image]
      | awaited hr ht =>
        simp [Network.next, hreq, hr, Request.image, h.answer_of_failed ht]
      | unknown hr ht =>
        obtain ⟨state, hstate⟩ := ranked.known (.inl ⟨s, hs, Session.holds_of_await hr⟩)
        simp [ht] at hstate
    have ended : (V.finish id { t with status := .failed e.message } (.failed e.message)
        queue).task id = some (.failed e.message) := by simp
    have own : (V.finish id { t with status := .failed e.message } (.failed e.message)
        queue).Shows P ν id (some (.failed log)) :=
      .failed (s := { t with status := .failed e.message }) ended (by simp)
        (keeps.result.trans hres) (hlog.congr keeps.output)
    obtain ⟨N', hfire, h'⟩ :=
      h.fire sound ranked hcell hnext own rfl rfl fun x hx => by simp [hx]
    exact ⟨1, N', .head hfire (.refl N'), h', by simp⟩
  | @suspended queue s task rest waiters hq hs hr ht =>
    obtain ⟨n, log, waiters', hcell, htask, hres, hlog⟩ :=
      h.active_of_open sound hs (hrun.isOver hs)
    have tasks (x : TaskId) : (V.suspend id s task queue).task x = V.task x ∨ ∃ ws ws',
        V.task x = some (.pending ws) ∧
          (V.suspend id s task queue).task x = some (.pending ws') := by
      by_cases e : x = task
      · subst e
        exact .inr ⟨waiters, _, ht, Function.update_self ..⟩
      · exact .inl (by simp [View.suspend, e])
    refine ⟨0, N, .refl N, h.frame sound ranked rfl rfl tasks (fun x => ?_),
      fun _ => .inr ⟨task, rfl⟩⟩
    by_cases e : x = id
    · obtain ⟨ws, hws⟩ : ∃ ws, (V.suspend id s task queue).task id = some (.pending ws) := by
        rcases tasks id with h | ⟨-, ws, -, hws⟩
        · exact ⟨waiters', h.trans htask⟩
        · exact ⟨ws, hws⟩
      rw [e, hcell]
      exact .inr (.active (s := { s with status := .suspended task }) hws (by simp) hres hlog)
    · exact .inl (by simp [e])

/-- Where all sessions are over, no task runs any more. -/
theorem not_active (h : Realizes P ν V N) (sound : V.Sound)
    (ended : ∀ t s, V.session t = some s → s.isOver) (p : TaskId) (s : Session) (n : Nat)
    (log : List (List Value)) : N p ≠ some (.active s n log) := by
  intro hp
  obtain ⟨t, rfl⟩ := h.named hp
  have hshow := h.cells t
  rw [hp] at hshow
  cases hshow with
  | active ht hs =>
    have hover := (sound.fits hs).pending.mp ⟨_, ht⟩
    simp [ended t _ hs] at hover

/-- When every session is over, no task of the network has a step. -/
theorem idle {exe : Executable} (h : Realizes P ν V N) (sound : V.Sound)
    (ended : ∀ t s, V.session t = some s → s.isOver) : N.Idle exe := by
  intro p
  cases hp : N p with
  | none => simp [Network.fire, hp]
  | some cell =>
    cases cell with
    | active s n log => exact absurd hp (h.not_active sound ended p s n log)
    | halted | failed | settled => simp [Network.fire, hp, Network.next]

end Realizes

end View

/-! ## Two views of one network -/

/-- Two sessions ended alike, under numbers of tasks that `σ` translates. They wrote the same if
what they printed is `plain`. -/
structure Session.Agrees (σ : TaskId → TaskId) (plain : Prop) (s t : Session) : Prop where
  halted : s.status = .halted ↔ t.status = .halted
  failed : (∃ message, s.status = .failed message) ↔ ∃ message, t.status = .failed message
  result : t.result = s.result.map (Value.rename σ)
  output : plain → s.output = t.output

namespace View

variable {P Q : List Value → Prop} {ν μ : TaskId → TaskId} {V W : View} {T : Network}
  {s t : Session} {log : List (List Value)}

/-- Sessions with one log have written the same, if no futures are in what they printed. -/
theorem Logs.output_eq (h : V.Logs P ν s log) (h' : W.Logs Q μ t log)
    (plain : ∀ args, P args → ∀ v ∈ args, v.FutureFree) : s.output = t.output := by
  obtain ⟨printed, hP, -, houtput, rfl⟩ := h
  obtain ⟨printed', -, -, houtput', hlog⟩ := h'
  have same {args : List Value} (hargs : ∀ v ∈ args, v.FutureFree) (ρ : TaskId → TaskId) :
      args.map (Value.rename ρ) = args :=
    (List.map_congr_left fun v hv => (hargs v hv).rename).trans (List.map_id args)
  have first : printed.map (List.map (Value.rename ν)) = printed :=
    (List.map_congr_left fun args ha => same (plain args (hP args ha)) ν).trans
      (List.map_id printed)
  rw [first] at hlog
  have second : printed'.map (List.map (Value.rename μ)) = printed' := by
    refine (List.map_congr_left fun args ha => same (fun v hv => ?_) μ).trans (List.map_id printed')
    have hmem : args.map (Value.rename μ) ∈ printed := hlog ▸ List.mem_map_of_mem ha
    exact (plain _ (hP _ hmem) _ (List.mem_map_of_mem hv)).of_rename
  rw [houtput, houtput', hlog, second]

namespace Realizes

/-- Two views of one network have the same tasks. -/
theorem partner (h : Realizes P ν V T) (h' : Realizes Q μ W T) {x : TaskId} {state : TaskState}
    (hx : V.task x = some state) : ∃ y state', W.task y = some state' ∧ μ y = ν x := by
  have hshow := h.cells x
  cases hcell : T (ν x) with
  | none =>
    rw [hcell] at hshow
    cases hshow with
    | missing ht => simp [ht] at hx
  | some cell =>
    obtain ⟨y, hy⟩ := h'.named hcell
    have hshow' := h'.cells y
    rw [hy, hcell] at hshow'
    cases hshow' with
    | active ht | halted ht | failed ht | settled ht => exact ⟨y, _, ht, hy⟩

noncomputable def renumber (ν μ : TaskId → TaskId) : TaskId → TaskId :=
  Function.invFun μ ∘ ν

theorem renumber_eq (h' : Realizes Q μ W T) {x y : TaskId} (hy : μ y = ν x) :
    renumber ν μ x = y := by
  rw [renumber, Function.comp_apply, ← hy]
  exact Function.leftInverse_invFun h'.injective y

theorem bijOn_renumber (h : Realizes P ν V T) (h' : Realizes Q μ W T) :
    Set.BijOn (renumber ν μ) {x | V.task x ≠ none} {y | W.task y ≠ none} := by
  have image {x : TaskId} (hx : V.task x ≠ none) :
      ∃ y, W.task y ≠ none ∧ μ y = ν x ∧ renumber ν μ x = y := by
    obtain ⟨state, hstate⟩ := Option.ne_none_iff_exists'.mp hx
    obtain ⟨y, state', hy, he⟩ := h.partner h' hstate
    exact ⟨y, by simp [hy], he, h'.renumber_eq he⟩
  refine ⟨fun x hx => ?_, fun x hx x' hx' heq => ?_, fun y hy => ?_⟩
  · obtain ⟨y, hy, -, he⟩ := image hx
    exact he ▸ hy
  · obtain ⟨y, -, hμ, he⟩ := image hx
    obtain ⟨y', -, hμ', he'⟩ := image hx'
    have : y = y' := by rw [← he, ← he', heq]
    exact h.injective (by rw [← hμ, ← hμ', this])
  · obtain ⟨state, hstate⟩ := Option.ne_none_iff_exists'.mp hy
    obtain ⟨x, state', hx, he⟩ := h'.partner h hstate
    exact ⟨x, by simp [hx], h'.renumber_eq he.symm⟩

theorem rename_renumber (h' : Realizes Q μ W T) {v w : Value} (hvw : v.rename ν = w.rename μ) :
    w = v.rename (renumber ν μ) := by
  have hid : Function.invFun μ ∘ μ = id := Function.LeftInverse.id
    (Function.leftInverse_invFun h'.injective)
  rw [renumber, ← Value.rename_rename, hvw, Value.rename_rename, hid, Value.rename_id]

/-- Where all sessions are over, those of one task ended alike. -/
theorem agrees (h : Realizes P ν V T) (h' : Realizes Q μ W T) (sound : V.Sound) (sound' : W.Sound)
    (ended : ∀ x s, V.session x = some s → s.isOver) {plain : Prop}
    (hP : ∀ args, P args → plain → ∀ v ∈ args, v.FutureFree) {x : TaskId}
    (hx : V.task x ≠ none) :
    Option.Rel (Session.Agrees (renumber ν μ) plain) (V.session x)
      (W.session (renumber ν μ x)) := by
  obtain ⟨state, hstate⟩ := Option.ne_none_iff_exists'.mp hx
  obtain ⟨y, state', hy, he⟩ := h.partner h' hstate
  rw [h'.renumber_eq he]
  have hshow := h.cells x
  have hshow' := h'.cells y
  rw [he] at hshow'
  generalize T (ν x) = cell at hshow hshow'
  cases hshow with
  | missing ht => simp [ht] at hstate
  | active ht hs =>
    have hover := (sound.fits hs).pending.mp ⟨_, ht⟩
    simp [ended x _ hs] at hover
  | @halted s v log ht hs hlog =>
    generalize hcell : some (Cell.halted (v.rename ν) log) = cell at hshow'
    cases hshow' with
    | @halted t w log' ht' hs' hlog' =>
      obtain ⟨hvw, rfl⟩ : v.rename ν = w.rename μ ∧ log = log' := by simpa using hcell
      obtain ⟨hstatus, hres⟩ := ((sound.fits hs).resolved v).mp ht
      obtain ⟨hstatus', hres'⟩ := ((sound'.fits hs').resolved w).mp ht'
      rw [hs, hs']
      refine .some ⟨by simp [hstatus, hstatus'], by simp [hstatus, hstatus'], ?_,
        fun plain => hlog.output_eq hlog' fun args ha => hP args ha plain⟩
      rw [hres, hres', Option.map_some, h'.rename_renumber hvw]
    | _ => cases hcell
  | @failed s message log ht hs hres hlog =>
    generalize hcell : some (Cell.failed log) = cell at hshow'
    cases hshow' with
    | @failed t message' log' ht' hs' hres' hlog' =>
      obtain rfl : log = log' := by simpa using hcell
      have hstatus := ((sound.fits hs).failed message).mp ht
      have hstatus' := ((sound'.fits hs').failed message').mp ht'
      rw [hs, hs']
      exact .some ⟨by simp [hstatus, hstatus'], by simp [hstatus, hstatus'],
        by simp [hres, hres'], fun plain => hlog.output_eq hlog' fun args ha => hP args ha plain⟩
    | _ => cases hcell
  | @settled v ht hs =>
    generalize hcell : some (Cell.settled (v.rename ν)) = cell at hshow'
    cases hshow' with
    | settled ht' hs' =>
      rw [hs, hs']
      exact .none
    | _ => cases hcell

end Realizes

end View

/-! ## Runs -/

namespace Scheduler

open View (Realizes)

variable {P : List Value → Prop} {ν : TaskId → TaskId} {N T : Network} {c d : Scheduler}
  {id : TaskId} {o : Outcome}

/-- A quantum is a number of steps of the network. It is none only if the session at the front of
the queue has to wait at once, and then the queue gets shorter. -/
theorem realizes_quantum (unblocked : c.Unblocked) (h : Realizes P ν c.world.view N)
    (hq : c.quantum = some ((id, o), d)) (hP : ∀ args ∈ c.quantumPrints, P args) :
    ∃ k ν' N', Network.Runs c.executable k N N' ∧ Realizes P ν' d.world.view N' ∧
      (k = 0 → d.world.queue.length < c.world.queue.length) := by
  obtain ⟨s, n, V, hs, hsteps, hc, hpos, sound, hrun⟩ := quantum_sound_spec unblocked.sound hq
  obtain ⟨s', hs', -, hover, -⟩ := quantum_runs unblocked.sound hq
  obtain rfl : s = s' := by simpa [hs] using hs'
  obtain ⟨queue, hqueue, -⟩ := quantum_eq_some hq
  obtain ⟨sound₀, hrun₀⟩ := sound_running unblocked.sound hqueue (unblocked.sound.fits hs).own
  have ranked₀ : (c.world.view.put id { s with status := .running }).Ranked :=
    unblocked.ranked.put rfl fun hold => .inl (.inl ⟨s, hs, hold⟩)
  have h₀ := h.mark unblocked.sound unblocked.ranked hs hover
  obtain ⟨ν', N₁, hruns, h₁⟩ := h₀.steps unblocked.plain sound₀ ranked₀ hrun₀ hP hsteps
  have ranked := ranked₀.steps unblocked.plain sound₀ hrun₀ hsteps
  obtain ⟨k, N', hend, h', hk⟩ := h₁.concludes unblocked.plain sound ranked hrun hc
  refine ⟨n + k, ν', N', hruns.trans hend, h', fun hzero => ?_⟩
  obtain ⟨rfl, rfl⟩ : n = 0 ∧ k = 0 := by omega
  generalize c.quantumPrints = prints at hsteps
  cases hsteps
  rcases hk rfl with rfl | ⟨task, rfl⟩
  · exact absurd (hpos rfl) (Nat.lt_irrefl 0)
  · generalize hview : d.world.view = V' at hc
    cases hc with
    | @suspended queue' _ _ _ _ hq' =>
      have hd : d.world.queue = queue' := congrArg View.queue hview
      have hc : c.world.queue = id :: queue' := hq'
      simp [hd, hc]

theorem realizes_run (unblocked : c.Unblocked) (h : Realizes P ν c.world.view N) (n : Nat)
    (hP : ∀ args ∈ c.prints n, P args) :
    ∃ k ν' N', Network.Runs c.executable k N N' ∧ Realizes P ν' (c.run n).world.view N' := by
  induction n generalizing c ν N with
  | zero => exact ⟨0, ν, N, .refl N, h⟩
  | succ n ih =>
    cases hq : c.quantum with
    | none =>
      rw [run_of_stuck hq]
      exact ⟨0, ν, N, .refl N, h⟩
    | some done =>
      obtain ⟨⟨id, o⟩, d⟩ := done
      have hprints : c.prints (n + 1) = c.quantumPrints ++ d.prints n := by simp [prints, hq]
      rw [hprints, List.forall_mem_append] at hP
      obtain ⟨k, ν₁, N₁, hruns, h₁, -⟩ := realizes_quantum unblocked h hq hP.1
      obtain ⟨m, ν₂, N₂, hruns', h₂⟩ := ih (unblocked.quantum hq) h₁ hP.2
      rw [(quantum_fields hq).1] at hruns'
      rw [run_of_quantum hq]
      exact ⟨k + m, ν₂, N₂, hruns.trans hruns', h₂⟩

theorem quantum_of_queue {queue : List TaskId} (h : c.world.queue = id :: queue) :
    ∃ o d, c.quantum = some ((id, o), d) := by
  simp [quantum, h]

/-- A program whose network has a run to its end comes to its end: with each quantum fewer steps
of the network remain, or as many and the queue is shorter. -/
theorem run_drains {k : Nat} (unblocked : c.Unblocked)
    (h : Realizes (fun _ => True) ν c.world.view N) (hruns : Network.Runs c.executable k N T)
    (idle : T.Idle c.executable) : ∃ n, (c.run n).world.queue = [] := by
  induction k using Nat.strongRecOn generalizing c ν N with
  | ind k ihSteps =>
    induction hlen : c.world.queue.length using Nat.strongRecOn generalizing c ν N with
    | ind len ihQueue =>
      rcases hqueue : c.world.queue with _ | ⟨id, queue⟩
      · exact ⟨0, hqueue⟩
      · obtain ⟨o, d, hq⟩ := quantum_of_queue hqueue
        obtain ⟨m, ν', N', hruns', h', hzero⟩ :=
          realizes_quantum unblocked h hq fun _ _ => trivial
        obtain ⟨rest, hk, hrest⟩ := Network.Runs.complete h.fresh idle hruns hruns'
        rw [← (quantum_fields hq).1] at hrest idle
        have hd : ∃ n, (d.run n).world.queue = [] := by
          by_cases hm : m = 0
          · obtain rfl : k = rest := by omega
            exact ihQueue _ (hlen ▸ hzero hm) (unblocked.quantum hq) h' hrest idle rfl
          · exact ihSteps rest (by omega) (unblocked.quantum hq) h' hrest idle
        obtain ⟨n, hn⟩ := hd
        exact ⟨n + 1, by rwa [run_of_quantum hq]⟩

def firstNames (t : TaskId) : TaskId :=
  if t = 0 then 0 else (2 * t + 1 : Nat)

theorem realizes_start (P : List Value → Prop) (ip : Nat) (first : Activation) :
    Realizes P firstNames ((World.view { topLevel := some 0 }).spawn ip first)
      (Network.initial (Session.image firstNames { id := 0, ip, activations := [first] })) := by
  have zero {t : TaskId} (ht : t < 0 + 1) : t = 0 := Nat.lt_one_iff.mp ht
  refine ⟨?_, ?_, ?_, ?_, ?_, ?_, Network.fresh_initial _, 0, rfl, Nat.zero_lt_one, rfl⟩
  · intro t u htu
    unfold firstNames at htu
    split at htu <;> split at htu
    · next ht hu => exact ht.trans hu.symm
    · cases htu
    · cases htu
    · exact Nat.eq_of_mul_eq_mul_left (by decide : 0 < 2) (Nat.succ.inj htu)
  · intro t ht
    rw [zero ht]
    rfl
  · intro t ht
    have hne : t ≠ 0 := Nat.ne_of_gt ht
    rw [firstNames, if_neg hne]
    exact Nat.mul_add_mod 2 t 1
  · intro t ht
    rw [zero ht]
    exact ⟨_, rfl⟩
  · intro t
    by_cases ht : t = 0
    · subst ht
      exact .active (s := { id := 0, ip, activations := [first] }) rfl rfl rfl
        ⟨[], by simp, by simp, rfl, rfl⟩
    · have hname : firstNames t ≠ 0 := by
        rw [firstNames, if_neg ht]
        exact Nat.succ_ne_zero _
      rw [Network.initial, if_neg hname]
      refine .missing ?_ ?_
      · rw [View.spawn_task]
        exact if_neg ht
      · rw [View.spawn_session]
        exact if_neg ht
  · intro p cell hp
    by_cases e : p = 0
    · exact ⟨0, e.symm⟩
    · simp [Network.initial, e] at hp

/-- What is reported of a program whose session is over. -/
theorem report_halted {top : TaskId} {s : Session} (htop : c.world.topLevel = some top)
    (hs : c.world.session? top = some s) (hstatus : s.status = .halted) :
    ∃ r, c.report = .ok r ∧ r.result = s.result.getD .null := by
  have hprogress : c.progress = .finished (s.result.getD .null) := by
    simp [progress, topSession?, htop, hs, hstatus]
  simp [report, htop, hprogress]

theorem report_failed {top : TaskId} {s : Session} {message : String}
    (htop : c.world.topLevel = some top) (hs : c.world.session? top = some s)
    (hstatus : s.status = .failed message) : ∃ e, c.report = .error e := by
  have hprogress : c.progress = .failed message := by
    simp [progress, topSession?, htop, hs, hstatus]
  simp [report, htop, hprogress]

/-- Programs whose sessions ended alike are reported alike. -/
theorem report_agrees {c' : Scheduler} {σ : TaskId → TaskId} {plain : Prop} {top : TaskId}
    (unblocked : c.Unblocked) (idle : c.world.queue = []) (htop : c.world.topLevel = some top)
    (htop' : c'.world.topLevel = some (σ top))
    (h : Option.Rel (Session.Agrees σ plain) (c.world.session? top)
      (c'.world.session? (σ top))) :
    (∃ p p', c.report = .ok p ∧ c'.report = .ok p' ∧ p'.result = p.result.rename σ) ∨
      ∃ e e', c.report = .error e ∧ c'.report = .error e' := by
  obtain ⟨s, hs⟩ := unblocked.top
  have hs : c.world.session? top = some s := by simpa [topSession?, htop] using hs
  generalize hs' : c'.world.session? (σ top) = session at h
  rw [hs] at h
  cases h with
  | @some _ s' hagree =>
    have hover := unblocked.isOver idle hs
    unfold Session.isOver at hover
    split at hover
    · next hstatus =>
      obtain ⟨p, hp, hresult⟩ := report_halted htop hs hstatus
      obtain ⟨p', hp', hresult'⟩ := report_halted htop' hs' (hagree.halted.mp hstatus)
      refine .inl ⟨p, p', hp, hp', ?_⟩
      rw [hresult, hresult', hagree.result]
      cases s.result <;> rfl
    · next message hstatus =>
      obtain ⟨message', hstatus'⟩ := hagree.failed.mp ⟨message, hstatus⟩
      obtain ⟨e, he⟩ := report_failed htop hs hstatus
      obtain ⟨e', he'⟩ := report_failed htop' hs' hstatus'
      exact .inr ⟨e, e', he, he'⟩
    · cases hover

/-- A program starts alike under all settings. -/
theorem start_settings {exe : Executable} {settings : MachineSettings} {entry : String}
    {args : List Value} (k : MachineSettings)
    (h : start { executable := exe, settings } entry args = .ok (id, c)) :
    ∃ c', start { executable := exe, settings := k } entry args = .ok (0, c') ∧
      c'.executable = c.executable ∧ c'.world.view = c.world.view := by
  obtain ⟨info, bindings, hf, hb, rfl, hexe, -, -, hview⟩ := start_view h
  obtain ⟨c', h'⟩ : ∃ c', start { executable := exe, settings := k } entry args = .ok (0, c') := by
    simp only [start, World.spawnCall, hf, hb, bind, Except.bind]
    exact ⟨_, rfl⟩
  obtain ⟨info', bindings', hf', hb', -, hexe', -, -, hview'⟩ := start_view h'
  obtain rfl : info = info' := Option.some.inj (hf.symm.trans hf')
  obtain rfl : bindings = bindings' := Except.ok.inj (hb.symm.trans hb')
  exact ⟨c', h', hexe'.trans hexe.symm, hview'.trans hview.symm⟩

theorem realizes_started {exe : Executable} {settings : MachineSettings} {entry : String}
    {args : List Value} (h : start { executable := exe, settings } entry args = .ok (id, c)) :
    ∃ N ν, ∀ P, Realizes P ν c.world.view N := by
  obtain ⟨info, bindings, -, -, -, -, -, -, hview⟩ := start_view h
  exact ⟨_, _, fun P => hview ▸ realizes_start P info.location { function := entry, bindings }⟩

def PrintsPlain (c : Scheduler) (n : Nat) : Prop :=
  ∀ args ∈ c.prints n, ∀ v ∈ args, v.FutureFree

/-- Two programs have ended alike: `σ` translates the numbers of the tasks of one to those of the
other, the sessions of a task ended alike, and either both programs have a result, which is the
same, or both failed. -/
structure EndsAlike (σ : TaskId → TaskId) (plain : Prop) (d d' : Scheduler) : Prop where
  tasks : Set.BijOn σ {t | d.world.task? t ≠ none} {t | d'.world.task? t ≠ none}
  top : d'.world.topLevel = d.world.topLevel.map σ
  sessions (t : TaskId) : d.world.task? t ≠ none →
    Option.Rel (Session.Agrees σ plain) (d.world.session? t) (d'.world.session? (σ t))
  report : (∃ p p', d.report = .ok p ∧ d'.report = .ok p' ∧ p'.result = p.result.rename σ) ∨
    ∃ e e', d.report = .error e ∧ d'.report = .error e'

/-- A program without futures in its constants and arguments that comes to its end does so under
any length of a slice, and it ends alike. -/
theorem drain_of_timeSlice {exe : Executable} {k k' : MachineSettings} {entry : String}
    {args : List Value} (hexe : exe.FutureFree) (hargs : ∀ v ∈ args, v.FutureFree)
    (h : start { executable := exe, settings := k } entry args = .ok (id, c)) {n : Nat}
    (hdrain : c.drain n = some (d.report, d)) :
    ∃ id' c' n' d' σ, start { executable := exe, settings := k' } entry args = .ok (id', c') ∧
      c'.drain n' = some (d'.report, d') ∧ EndsAlike σ (c.PrintsPlain n) d d' := by
  obtain ⟨hidle, rfl, -⟩ := drain_eq_some hdrain
  obtain ⟨c', h', hexe', hview⟩ := start_settings k' h
  have unblocked := Unblocked.start hexe hargs h
  have unblocked' := Unblocked.start hexe hargs h'
  have ended (t : TaskId) (s : Session) (hs : (c.run n).world.session? t = some s) : s.isOver :=
    (unblocked.run n).isOver hidle hs
  -- the first run leads the network to its end
  obtain ⟨N, names, initial⟩ := realizes_started h
  obtain ⟨m, ν, T, hruns, real⟩ := realizes_run unblocked
    (initial fun xs => c.PrintsPlain n → ∀ v ∈ xs, v.FutureFree) n fun xs hxs plain => plain xs hxs
  have idle : T.Idle c.executable := real.idle (unblocked.run n).sound ended
  rw [← hexe'] at hruns idle
  -- so the second run comes to an end, which is the same
  have initial' : Realizes (fun _ => True) names c'.world.view N := hview ▸ initial _
  obtain ⟨n', hidle'⟩ := run_drains unblocked' initial' hruns idle
  obtain ⟨m', μ, M, hruns', real'⟩ := realizes_run unblocked' initial' n' fun _ _ => trivial
  have idle' : M.Idle c'.executable :=
    real'.idle (unblocked'.run n').sound fun t s hs => (unblocked'.run n').isOver hidle' hs
  obtain ⟨j, -, hrest⟩ := Network.Runs.complete initial'.fresh idle hruns hruns'
  obtain rfl : M = T := hrest.eq_of_idle idle'
  obtain ⟨top, htop, hbelow, hroot⟩ := real.top
  obtain ⟨top', htop', hbelow', hroot'⟩ := real'.top
  have hσ : View.Realizes.renumber ν μ top = top' := real'.renumber_eq (hroot'.trans hroot.symm)
  have agree (t : TaskId) (ht : (c.run n).world.task? t ≠ none) :
      Option.Rel (Session.Agrees (View.Realizes.renumber ν μ) (c.PrintsPlain n))
        ((c.run n).world.session? t)
        ((c'.run n').world.session? (View.Realizes.renumber ν μ t)) :=
    real.agrees real' (unblocked.run n).sound (unblocked'.run n').sound ended
      (fun args hargs => hargs) ht
  have topKnown : (c.run n).world.task? top ≠ none :=
    Option.ne_none_iff_exists'.mpr (real.dense hbelow)
  refine ⟨0, c', n', c'.run n', View.Realizes.renumber ν μ, h', drain_of_idle hidle',
    real.bijOn_renumber real', ?_, agree, ?_⟩
  · have htop : (c.run n).world.topLevel = some top := htop
    have htop' : (c'.run n').world.topLevel = some top' := htop'
    rw [htop, htop', Option.map_some, hσ]
  · exact report_agrees (unblocked.run n) hidle htop (htop'.trans (congrArg some hσ.symm))
      (agree top topKnown)

/-- A slice of one step brings `awaitOnce` to the end that it has when both its sessions run as
long as they can. -/
theorem drain_of_timeSlice_awaitOnce :
    awaitOnce.FutureFree ∧ ∃ c d,
      start { executable := awaitOnce, settings := {} } "main" [] = .ok (0, c) ∧
      c.drain 3 = some (d.report, d) ∧
      ∃ id' c' n' d' σ,
        start { executable := awaitOnce, settings := { stepLimit := 1 } } "main" [] =
          .ok (id', c') ∧
        c'.drain n' = some (d'.report, d') ∧ EndsAlike σ (c.PrintsPlain 3) d d' := by
  obtain ⟨c, h, hidle⟩ : ∃ c, start { executable := awaitOnce, settings := {} } "main" [] =
      .ok (0, c) ∧ (c.run 3).world.queue = [] := ⟨_, rfl, by decide +kernel⟩
  exact ⟨awaitOnce_futureFree, c, c.run 3, h, drain_of_idle hidle,
    drain_of_timeSlice awaitOnce_futureFree (by simp) h (drain_of_idle hidle)⟩

end Scheduler

end Teal
