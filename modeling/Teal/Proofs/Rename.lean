import Mathlib.Logic.Function.Basic
import Teal.Proofs.Induction
import Teal.Proofs.Request

/-!
# Renaming tasks

A session sees the numbers of tasks only inside of futures, and of two futures it can only tell
whether they are the same. So a session whose tasks are renamed, two of them never alike, makes
the same requests with the renamed tasks in them.

## Main definitions

* `Value.rename`: a value with its tasks renamed.
* `Session.image`, `Request.image`: what of a session its requests depend on, with tasks renamed.

## Main statements

* `Value.same_rename`, `Value.rename_congr`, `Value.rename_rename`: laws of renaming.
* `request_image`: the requests of a session with its tasks renamed.
-/

namespace Teal

/-- Names stay different when one is given out that nothing has. -/
theorem injective_update {ν : TaskId → TaskId} (hν : Function.Injective ν) {q : TaskId}
    (unused : ∀ t, ν t ≠ q) (id : TaskId) : Function.Injective (Function.update ν id q) := by
  intro t u htu
  rw [Function.update_apply, Function.update_apply] at htu
  split at htu <;> split at htu
  · next ht hu => exact ht.trans hu.symm
  · exact absurd htu.symm (unused u)
  · exact absurd htu (unused t)
  · exact hν htu

namespace Value

variable {ρ τ : TaskId → TaskId}

mutual

def rename (ρ : TaskId → TaskId) : Value → Value
  | .list items => .list (renameItems ρ items)
  | .hash pairs => .hash (renamePairs ρ pairs)
  | .closure name captured => .closure name (renameEntries ρ captured)
  | .future task => .future (ρ task)
  | .null => .null
  | .boolean b => .boolean b
  | .integer n => .integer n
  | .float x => .float x
  | .string s => .string s
  | .symbol s => .symbol s
  | .function name => .function name

def renameItems (ρ : TaskId → TaskId) : List Value → List Value
  | [] => []
  | v :: rest => rename ρ v :: renameItems ρ rest

def renamePairs (ρ : TaskId → TaskId) : List (Value × Value) → List (Value × Value)
  | [] => []
  | (k, v) :: rest => (rename ρ k, rename ρ v) :: renamePairs ρ rest

def renameEntries (ρ : TaskId → TaskId) : List (String × Value) → List (String × Value)
  | [] => []
  | (name, v) :: rest => (name, rename ρ v) :: renameEntries ρ rest

end

theorem renameItems_eq_map (items : List Value) : renameItems ρ items = items.map (rename ρ) := by
  induction items with
  | nil => rfl
  | cons v rest ih => simp [renameItems, ih]

theorem renamePairs_eq_map (pairs : List (Value × Value)) :
    renamePairs ρ pairs = pairs.map (Prod.map (rename ρ) (rename ρ)) := by
  induction pairs with
  | nil => rfl
  | cons p rest ih => simp [renamePairs, ih, Prod.map]

theorem renameEntries_eq_map (entries : List (String × Value)) :
    renameEntries ρ entries = entries.map (Prod.map id (rename ρ)) := by
  induction entries with
  | nil => rfl
  | cons p rest ih => simp [renameEntries, ih, Prod.map]

section Constructors

variable (ρ)

@[simp] theorem rename_null : rename ρ .null = .null := rfl

@[simp] theorem rename_boolean (b : Bool) : rename ρ (.boolean b) = .boolean b := rfl

@[simp] theorem rename_integer (n : Int64) : rename ρ (.integer n) = .integer n := rfl

@[simp] theorem rename_float (x : Float) : rename ρ (.float x) = .float x := rfl

@[simp] theorem rename_string (s : String) : rename ρ (.string s) = .string s := rfl

@[simp] theorem rename_symbol (s : String) : rename ρ (.symbol s) = .symbol s := rfl

@[simp] theorem rename_function (name : String) : rename ρ (.function name) = .function name := rfl

@[simp] theorem rename_future (task : TaskId) : rename ρ (.future task) = .future (ρ task) := rfl

@[simp] theorem rename_list (items : List Value) :
    rename ρ (.list items) = .list (items.map (rename ρ)) := by
  simp [rename, renameItems_eq_map]

@[simp] theorem rename_hash (pairs : List (Value × Value)) :
    rename ρ (.hash pairs) = .hash (pairs.map (Prod.map (rename ρ) (rename ρ))) := by
  simp [rename, renamePairs_eq_map]

@[simp] theorem rename_closure (function : String) (captured : List (String × Value)) :
    rename ρ (.closure function captured) =
      .closure function (captured.map (Prod.map id (rename ρ))) := by
  simp [rename, renameEntries_eq_map]

end Constructors

/-- Renamings that agree on the tasks of a value rename it alike. -/
theorem rename_congr {v : Value} (h : ∀ t, Part (.future t) v → ρ t = τ t) :
    v.rename ρ = v.rename τ := by
  induction v with
  | list items ih =>
    rw [rename_list, rename_list]
    congr 1
    refine List.map_congr_left fun v hv => ih v hv fun t ht => h t ?_
    exact part_list.mpr (.inr ⟨v, hv, ht⟩)
  | hash pairs ih =>
    rw [rename_hash, rename_hash]
    congr 1
    refine List.map_congr_left fun p hp => ?_
    obtain ⟨ihKey, ihValue⟩ := ih p hp
    refine Prod.ext (ihKey fun t ht => h t ?_) (ihValue fun t ht => h t ?_)
    · exact part_hash.mpr (.inr ⟨p, hp, .inl ht⟩)
    · exact part_hash.mpr (.inr ⟨p, hp, .inr ht⟩)
  | closure function captured ih =>
    rw [rename_closure, rename_closure]
    congr 1
    refine List.map_congr_left fun entry he => Prod.ext rfl (ih entry he fun t ht => h t ?_)
    exact part_closure.mpr (.inr ⟨entry, he, ht⟩)
  | future task => rw [rename_future, rename_future, h task (by simp)]
  | _ => rfl

theorem rename_id (v : Value) : v.rename id = v := by
  induction v with
  | list items ih => simp [List.map_congr_left ih]
  | hash pairs ih =>
    have h : pairs.map (Prod.map (rename id) (rename id)) = pairs.map id :=
      List.map_congr_left fun p hp => Prod.ext (ih p hp).1 (ih p hp).2
    simp [h]
  | closure function captured ih =>
    have h : captured.map (Prod.map id (rename id)) = captured.map id :=
      List.map_congr_left fun entry he => Prod.ext rfl (ih entry he)
    simp [h]
  | _ => rfl

theorem rename_rename (v : Value) : (v.rename ρ).rename τ = v.rename (τ ∘ ρ) := by
  induction v with
  | list items ih => simpa using ih
  | hash pairs ih =>
    simp only [rename_hash, List.map_map]
    congr 1
    exact List.map_congr_left fun p hp => Prod.ext (ih p hp).1 (ih p hp).2
  | closure function captured ih =>
    simp only [rename_closure, List.map_map]
    congr 1
    exact List.map_congr_left fun entry he => Prod.ext rfl (ih entry he)
  | _ => rfl

/-- A value without futures has nothing to rename. -/
theorem FutureFree.rename {v : Value} (h : v.FutureFree) : v.rename ρ = v :=
  (rename_congr (τ := id) fun t ht => (h t ht).elim).trans (rename_id v)

theorem part_rename {t : TaskId} {v : Value} (h : Part (.future t) v) :
    Part (.future (ρ t)) (v.rename ρ) := by
  induction h with
  | self => exact .self
  | item hv _ ih =>
    rw [rename_list]
    exact .item (List.mem_map_of_mem hv) ih
  | key hp _ ih =>
    rw [rename_hash]
    exact .key (List.mem_map_of_mem hp) ih
  | value hp _ ih =>
    rw [rename_hash]
    exact .value (List.mem_map_of_mem hp) ih
  | captured he _ ih =>
    rw [rename_closure]
    exact .captured (List.mem_map_of_mem he) ih

theorem FutureFree.of_rename {v : Value} (h : (v.rename ρ).FutureFree) : v.FutureFree :=
  fun t ht => h (ρ t) (part_rename ht)

theorem kind_rename (v : Value) : (v.rename ρ).kind = v.kind := by
  cases v <;> rfl

theorem isTruthy_rename (v : Value) : (v.rename ρ).isTruthy = v.isTruthy := by
  cases v <;> simp [isTruthy]

section Same

theorem sameItems_rename {items : List Value}
    (ih : ∀ v ∈ items, ∀ w, (v.rename ρ).same (w.rename ρ) = v.same w) (others : List Value) :
    sameItems (items.map (rename ρ)) (others.map (rename ρ)) = sameItems items others := by
  induction items generalizing others with
  | nil => cases others <;> rfl
  | cons v rest ihRest =>
    cases others with
    | nil => rfl
    | cons w others =>
      simp only [List.map_cons, sameItems, ih v (by simp) w,
        ihRest (fun v hv => ih v (by simp [hv]))]

theorem samePairs_rename {pairs : List (Value × Value)}
    (ih : ∀ p ∈ pairs, (∀ w, (p.1.rename ρ).same (w.rename ρ) = p.1.same w) ∧
      ∀ w, (p.2.rename ρ).same (w.rename ρ) = p.2.same w) (others : List (Value × Value)) :
    samePairs (pairs.map (Prod.map (rename ρ) (rename ρ)))
      (others.map (Prod.map (rename ρ) (rename ρ))) = samePairs pairs others := by
  induction pairs generalizing others with
  | nil => cases others <;> rfl
  | cons p rest ihRest =>
    cases others with
    | nil => rfl
    | cons q others =>
      obtain ⟨hkey, hvalue⟩ := ih p (by simp)
      rw [List.map_cons, List.map_cons, Prod.map, Prod.map, samePairs, samePairs, hkey, hvalue,
        ihRest fun p hp => ih p (by simp [hp])]

theorem sameEntries_rename {entries : List (String × Value)}
    (ih : ∀ e ∈ entries, ∀ w, (e.2.rename ρ).same (w.rename ρ) = e.2.same w)
    (others : List (String × Value)) :
    sameEntries (entries.map (Prod.map id (rename ρ))) (others.map (Prod.map id (rename ρ))) =
      sameEntries entries others := by
  induction entries generalizing others with
  | nil => cases others <;> rfl
  | cons e rest ihRest =>
    cases others with
    | nil => rfl
    | cons f others =>
      rw [List.map_cons, List.map_cons, Prod.map, Prod.map, sameEntries, sameEntries,
        ih e (by simp), ihRest fun e he => ih e (by simp [he]), id, id]

/-- Tasks that differ keep different names, so equality of values stays as it is. -/
theorem same_rename (hρ : Function.Injective ρ) (v w : Value) :
    (v.rename ρ).same (w.rename ρ) = v.same w := by
  induction v generalizing w with
  | list items ih =>
    cases w with
    | list others => simpa only [rename_list, same] using sameItems_rename ih others
    | _ => rfl
  | hash pairs ih =>
    cases w with
    | hash others => simpa only [rename_hash, same] using samePairs_rename ih others
    | _ => rfl
  | closure name captured ih =>
    cases w with
    | closure name' others => simp only [rename_closure, same, sameEntries_rename ih others]
    | _ => rfl
  | future task =>
    cases w with
    | future task' => simp [same, hρ.eq_iff]
    | _ => rfl
  | _ => cases w <;> rfl

end Same

end Value

/-! ## Operators and builtins -/

namespace Operator

variable {ρ : TaskId → TaskId}

theorem rename_of_unmade {r : Except MachineError Value}
    (h : ∀ {v u : Value}, u.passedOn → r = .ok v → ¬ u.Part v) : r.map (Value.rename ρ) = r := by
  cases r with
  | error e => rfl
  | ok v => exact congrArg Except.ok (Value.FutureFree.rename fun t => h rfl rfl)

theorem calculate_rename (op : Arithmetic) (a b : Value) :
    calculate op (a.rename ρ) (b.rename ρ) = (calculate op a b).map (Value.rename ρ) := by
  have integers (m n : Int64) : (onIntegers op m n).map (Value.rename ρ) = onIntegers op m n :=
    rename_of_unmade part_onIntegers
  have floats (x y : Float) : (onFloats op x y).map (Value.rename ρ) = onFloats op x y :=
    rename_of_unmade part_onFloats
  cases a <;> cases b
  case integer.integer m n => exact (integers m n).symm
  case float.float x y => exact (floats x y).symm
  case integer.float m y => exact (floats (widen m) y).symm
  case float.integer x n => exact (floats x (widen n)).symm
  case list.list xs ys => cases op <;> simp [calculate, join, unsupported, Except.map, Value.kind]
  all_goals cases op <;> rfl

theorem equal_rename (hρ : Function.Injective ρ) (a b : Value) :
    equal (a.rename ρ) (b.rename ρ) = equal a b := by
  have h := Value.same_rename hρ a b
  cases a <;> cases b <;> first | rfl | exact h

theorem less?_rename (a b : Value) : less? (a.rename ρ) (b.rename ρ) = less? a b := by
  cases a <;> cases b <;> rfl

theorem apply_rename (hρ : Function.Injective ρ) (op : Operator) (a b : Value) :
    op.apply (a.rename ρ) (b.rename ρ) = (op.apply a b).map (Value.rename ρ) := by
  have compared (answer : Option Bool) : compared (a.rename ρ) (b.rename ρ) answer =
      (compared a b answer).map (Value.rename ρ) := by
    cases answer with
    | none => simp [Operator.compared, Value.kind_rename, Except.map]
    | some b => rfl
  cases op with
  | add | sub | mul | div => exact calculate_rename _ a b
  | eq => simp [apply, equal_rename hρ, Except.map]
  | lt => simpa only [apply, less?_rename] using compared (less? a b)
  | gt => simpa only [apply, less?_rename] using compared (less? b a)
  | and | or => simp [apply, Value.isTruthy_rename, Except.map]

end Operator

section Calls

variable {ρ τ : TaskId → TaskId}

theorem Value.putPair_rename (hρ : Function.Injective ρ) (key value : Value)
    (pairs : List (Value × Value)) :
    putPair (key.rename ρ) (value.rename ρ) (pairs.map (Prod.map (rename ρ) (rename ρ))) =
      (putPair key value pairs).map (Prod.map (rename ρ) (rename ρ)) := by
  induction pairs with
  | nil => rfl
  | cons p rest ih =>
    simp only [List.map_cons, Prod.map, putPair, same_rename hρ]
    split
    · rfl
    · rw [List.map_cons, ← ih]
      rfl

theorem Value.putPairs_rename (hρ : Function.Injective ρ) (pairs : List (Value × Value))
    (args : List Value) :
    putPairs (pairs.map (Prod.map (rename ρ) (rename ρ))) (args.map (rename ρ)) =
      (putPairs pairs args).map (Prod.map (rename ρ) (rename ρ)) := by
  fun_induction putPairs pairs args with
  | case1 pairs key value rest ih =>
    rw [← ih, List.map_cons, List.map_cons, putPairs, putPair_rename hρ]
  | case2 args pairs hargs =>
    rcases args with _ | ⟨a, _ | ⟨b, rest⟩⟩
    · rfl
    · rfl
    · exact (hargs a b rest rfl).elim

/-- A builtin does the same with renamed tasks, except for the lines that it writes. -/
theorem Builtin.call_rename (hρ : Function.Injective ρ) (name : String) (b : Builtin)
    (args keywords : List Value) :
    (∃ e, b.call name args keywords = .error e ∧
        b.call name (args.map (Value.rename ρ)) keywords = .error e) ∨
      ∃ v lines lines', b.call name args keywords = .ok (v, lines) ∧
        b.call name (args.map (Value.rename ρ)) keywords = .ok (v.rename ρ, lines') := by
  simp only [call, bind, Except.bind]
  cases rejectKeywords name keywords with
  | error e => exact .inl ⟨e, rfl, rfl⟩
  | ok _ =>
    cases b with
    | list => exact .inr ⟨.list args, [], [], rfl, by simp [invoke]⟩
    | hash =>
      have h := Value.putPairs_rename hρ [] args
      simp only [invoke, List.length_map, Value.hashOf]
      split
      · exact .inr ⟨_, _, [], rfl, by simpa using h⟩
      · exact .inl ⟨_, rfl, rfl⟩
    | print =>
      refine .inr ⟨_, _, [printLine (args.map (Value.rename ρ))], rfl, ?_⟩
      simp only [invoke, List.head?_map]
      cases args.head? <;> rfl

theorem Builtin.prints_rename (b : Builtin) (args : List Value) :
    b.prints (args.map (Value.rename ρ)) = (b.prints args).map (List.map (Value.rename ρ)) := by
  cases b <;> rfl

def Bindings.rename (ρ : TaskId → TaskId) (b : Bindings) : Bindings :=
  b.map (Prod.map id (Value.rename ρ))

theorem Bindings.rename_congr {b : Bindings}
    (h : ∀ t, (Value.future t).Bound b → ρ t = τ t) : b.rename ρ = b.rename τ :=
  List.map_congr_left fun entry he =>
    Prod.ext rfl (Value.rename_congr fun t ht => h t ⟨entry, he, ht⟩)

theorem Bindings.get?_rename (b : Bindings) (name : String) :
    (b.rename ρ).get? name = (b.get? name).map (Value.rename ρ) := by
  induction b with
  | nil => rfl
  | cons entry rest ih =>
    simp only [rename, List.map_cons, Prod.map, id, Table.get?] at ih ⊢
    split
    · rfl
    · exact ih

theorem Bindings.insert_rename (b : Bindings) (name : String) (v : Value) :
    Table.insert name (v.rename ρ) (b.rename ρ) = Bindings.rename ρ (b.insert name v) := by
  induction b with
  | nil => rfl
  | cons entry rest ih =>
    simp only [rename, List.map_cons, Prod.map, id, Table.insert] at ih ⊢
    split
    · rfl
    · split
      · rfl
      · rw [List.map_cons, ← ih]
        rfl

theorem bindAll_rename (b : Bindings) (entries : List (String × Value)) :
    bindAll (b.rename ρ) (entries.map (Prod.map id (Value.rename ρ))) =
      Bindings.rename ρ (bindAll b entries) := by
  induction entries generalizing b with
  | nil => rfl
  | cons entry rest ih =>
    simp only [bindAll, List.map_cons, List.foldl_cons] at ih ⊢
    rw [← ih, ← Bindings.insert_rename]
    rfl

def Claims.rename (ρ : TaskId → TaskId) (c : Claims) : Claims :=
  { c with positional := c.positional.map (Value.rename ρ), bindings := c.bindings.rename ρ }

theorem Claims.add_rename (function : String) (params : List String) (c : Claims)
    (arg keyword : Value) :
    (c.rename ρ).add function params (arg.rename ρ) keyword =
      (c.add function params arg keyword).map (Claims.rename ρ) := by
  have named (key : String) : (c.rename ρ).add function params (arg.rename ρ) (.symbol key) =
      (c.add function params arg (.symbol key)).map (Claims.rename ρ) := by
    have insert := Bindings.insert_rename (ρ := ρ) c.bindings key arg
    by_cases hparam : key ∈ params <;> by_cases hclaimed : key ∈ c.claimed <;>
      simp [add, rename, Except.map, hparam, hclaimed, insert]
  cases keyword with
  | null => simp [add, rename, Except.map]
  | symbol key | string key => exact named key
  | _ => rfl

theorem Claims.addAll_rename (function : String) (params : List String) (c : Claims)
    (pairs : List (Value × Value)) :
    (c.rename ρ).addAll function params (pairs.map (Prod.map (Value.rename ρ) id)) =
      (c.addAll function params pairs).map (Claims.rename ρ) := by
  induction pairs generalizing c with
  | nil => rfl
  | cons p rest ih =>
    simp only [List.map_cons, Prod.map, id, addAll, add_rename, bind, Except.bind]
    cases c.add function params p.1 p.2 with
    | error e => rfl
    | ok d => exact ih d

theorem argumentBindings_rename (function : String) (params : List String) (captured : Bindings)
    (args keywords : List Value) :
    argumentBindings function params (captured.rename ρ) (args.map (Value.rename ρ)) keywords =
      (argumentBindings function params captured args keywords).map (Bindings.rename ρ) := by
  have zip : (args.map (Value.rename ρ)).zip keywords =
      (args.zip keywords).map (Prod.map (Value.rename ρ) id) := List.zip_map_left
  simp only [argumentBindings, List.length_map, zip, bind, Except.bind]
  split
  · rfl
  · rw [show ({ bindings := captured.rename ρ } : Claims) =
      Claims.rename ρ { bindings := captured } from rfl, Claims.addAll_rename]
    cases Claims.addAll function params { bindings := captured } (args.zip keywords) with
    | error e => rfl
    | ok c =>
      have free : (c.rename ρ).openParams params = c.openParams params := rfl
      have zip : (c.openParams params).zip (c.rename ρ).positional =
          ((c.openParams params).zip c.positional).map (Prod.map id (Value.rename ρ)) :=
        List.zip_map_right
      have length : (c.rename ρ).positional.length = c.positional.length :=
        List.length_map _
      simp only [Except.map, free, zip, length]
      split
      · rfl
      · exact congrArg Except.ok (bindAll_rename c.bindings _)

def Callee.rename (ρ : TaskId → TaskId) : Callee → Callee
  | .compiled name info captured => .compiled name info (captured.rename ρ)
  | .builtin name b => .builtin name b

theorem Callee.resolve_rename (exe : Executable) (v : Value) :
    Callee.resolve exe (v.rename ρ) = (Callee.resolve exe v).map (Callee.rename ρ) := by
  cases v with
  | function name =>
    simp only [Value.rename_function, resolve]
    split <;> rfl
  | closure name captured =>
    simp only [Value.rename_closure, resolve]
    split <;> rfl
  | _ => rfl

def TakenCall.rename (ρ : TaskId → TaskId) (call : TakenCall) : TakenCall :=
  ⟨call.callee.rename ρ, call.args.map (Value.rename ρ), call.stack.map (Value.rename ρ)⟩

theorem takeCall_rename (count : Int) (stack : List Value) :
    takeCall count (stack.map (Value.rename ρ)) =
      match takeCall count stack with
      | .ok call => .ok (call.rename ρ)
      | .error (e, rest) => .error (e, rest.map (Value.rename ρ)) := by
  unfold takeCall
  by_cases h : count < 0
  · simp [h]
  · cases stack with
    | nil => simp [h]
    | cons callee rest =>
      by_cases hlen : rest.length < count.toNat
      · simp [h, hlen]
      · simp [h, hlen, TakenCall.rename]

def TakenCall.Effect.rename (ρ : TaskId → TaskId) : TakenCall.Effect → TakenCall.Effect
  | .enters name info bindings => .enters name info (bindings.rename ρ)
  | .gives v prints => .gives (v.rename ρ) (prints.map (List.map (Value.rename ρ)))

/-- A call with its tasks renamed does the same with the renamed tasks. -/
theorem TakenCall.effect_rename (hρ : Function.Injective ρ) (exe : Executable) (call : TakenCall)
    (keywords : List Value) :
    (call.rename ρ).effect exe keywords =
      (call.effect exe keywords).map (TakenCall.Effect.rename ρ) := by
  simp only [effect, rename, Callee.resolve_rename]
  rcases Callee.resolve exe call.callee with e | ⟨name, info, captured⟩ | ⟨name, b⟩
  · rfl
  · simp only [Except.map, Callee.rename, argumentBindings_rename]
    cases argumentBindings name info.params captured call.args keywords <;> rfl
  · simp only [Except.map, Callee.rename]
    rcases Builtin.call_rename hρ name b call.args keywords with
      ⟨e, h, h'⟩ | ⟨v, lines, lines', h, h'⟩
    · simp only [h, h']
    · simp only [h, h', Builtin.prints_rename, Effect.rename]

end Calls

/-! ## Requests -/

section Requests

variable {ρ τ : TaskId → TaskId}

def Activation.rename (ρ : TaskId → TaskId) (a : Activation) : Activation :=
  { a with bindings := a.bindings.rename ρ }

/-- What of a session its requests depend on, with tasks renamed. -/
def Session.image (ρ : TaskId → TaskId) (s : Session) : Session where
  id := 0
  ip := s.ip
  stack := s.stack.map (Value.rename ρ)
  activations := s.activations.map (Activation.rename ρ)

theorem Session.image_congr {s : Session} (h : ∀ t, s.Holds (.future t) → ρ t = τ t) :
    s.image ρ = s.image τ := by
  have stack : s.stack.map (Value.rename ρ) = s.stack.map (Value.rename τ) :=
    List.map_congr_left fun v hv => Value.rename_congr fun t ht => h t (.inl ⟨v, hv, ht⟩)
  have activations : s.activations.map (Activation.rename ρ) =
      s.activations.map (Activation.rename τ) := by
    refine List.map_congr_left fun a ha => ?_
    rw [Activation.rename, Bindings.rename_congr fun t ht => h t (.inr ⟨a, ha, ht⟩),
      Activation.rename]
  simp only [image, stack, activations]

def Request.image (ρ : TaskId → TaskId) : Request → Request
  | .goOn s prints => .goOn (s.image ρ) (prints.map (List.map (Value.rename ρ)))
  | .halt s v => .halt (s.image ρ) (v.rename ρ)
  | .fail s e => .fail (s.image ρ) e
  | .spawn s ip first => .spawn (s.image ρ) ip (first.rename ρ)
  | .settle s v prints => .settle (s.image ρ) (v.rename ρ) (prints.map (List.map (Value.rename ρ)))
  | .await s task rest => .await (s.image ρ) (ρ task) (rest.map (Value.rename ρ))

theorem Request.ofCall_image (hρ : Function.Injective ρ) (exe : Executable) (s : Session)
    (call : TakenCall) (keywords : List Value) :
    ofCall exe (s.image ρ) (call.rename ρ) keywords = (ofCall exe s call keywords).image ρ := by
  simp only [ofCall_eq, TakenCall.effect_rename hρ]
  rcases call.effect exe keywords with e | ⟨name, info, bindings⟩ | ⟨v, prints⟩ <;> rfl

theorem Request.ofAsyncCall_image (hρ : Function.Injective ρ) (exe : Executable) (s : Session)
    (call : TakenCall) (keywords : List Value) :
    ofAsyncCall exe (s.image ρ) (call.rename ρ) keywords =
      (ofAsyncCall exe s call keywords).image ρ := by
  simp only [ofAsyncCall_eq, TakenCall.effect_rename hρ]
  rcases call.effect exe keywords with e | ⟨name, info, bindings⟩ | ⟨v, prints⟩ <;> rfl

theorem Session.bindings?_image (s : Session) :
    (s.image ρ).bindings? = s.bindings?.map (Bindings.rename ρ) := by
  simp only [bindings?, image, List.head?_map, Option.map_map]
  rfl

theorem lookup_image (exe : Executable) (s : Session) (name : String) :
    lookup exe (s.image ρ) name = (lookup exe s name).map (Value.rename ρ) := by
  have h : (s.image ρ).bindings?.bind (·.get? name) =
      (s.bindings?.bind (·.get? name)).map (Value.rename ρ) := by
    rw [Session.bindings?_image]
    cases s.bindings? with
    | none => rfl
    | some b => exact Bindings.get?_rename b name
  simp only [lookup, h]
  cases s.bindings?.bind (·.get? name) with
  | some v => rfl
  | none =>
    simp only [Option.map_none]
    split <;> rfl

theorem Session.bindName_image (s : Session) (name : String) (v : Value) :
    (s.image ρ).bindName name (v.rename ρ) = (s.bindName name v).map (Session.image ρ) := by
  simp only [bindName, image]
  cases s.activations with
  | nil => rfl
  | cons latest rest =>
    have h := Bindings.insert_rename (ρ := ρ) latest.bindings name v
    simp [Activation.rename, h, image]

theorem Request.ofOp_image (hρ : Function.Injective ρ) {exe : Executable} {s : Session} {op : Op}
    (hop : ∀ v, op = .pushValue v → v.FutureFree) :
    ofOp exe (s.image ρ) op = (ofOp exe s op).image ρ := by
  have stack : (s.image ρ).stack = s.stack.map (Value.rename ρ) := rfl
  cases op with
  | pushValue v =>
    have hv : v.rename ρ = v := (hop v rfl).rename
    simp only [ofOp, execute, ofTurn, Turn.goOn, image, Session.image, Session.advance,
      Session.withStack, List.map_cons, hv, List.map_nil]
  | pushBinding name =>
    simp only [ofOp, execute, lookup_image]
    cases lookup exe s name <;> rfl
  | bind name =>
    simp only [ofOp, execute, stack, List.head?_map]
    cases s.stack.head? with
    | none => rfl
    | some v =>
      simp only [Option.map_some, Option.bind_some, Session.bindName_image]
      cases s.bindName name v <;> rfl
  | pop =>
    simp only [ofOp, execute, stack]
    cases s.stack <;> rfl
  | jump offset =>
    have ip : (s.image ρ).ip = s.ip := rfl
    simp only [ofOp, execute, ip]
    cases jumpTarget exe s.ip offset <;> rfl
  | jumpIf offset =>
    have ip : (s.image ρ).ip = s.ip := rfl
    simp only [ofOp, execute, stack]
    cases s.stack with
    | nil => rfl
    | cons condition rest =>
      simp only [List.map_cons, Value.isTruthy_rename, Session.withStack, ip]
      split
      · cases jumpTarget exe s.ip offset <;> rfl
      · rfl
  | call count keywords =>
    simp only [ofOp, stack, takeCall_rename]
    rcases takeCall count s.stack with ⟨e, rest⟩ | call
    · rfl
    · exact ofCall_image hρ exe s call keywords
  | asyncCall count keywords =>
    simp only [ofOp, stack, takeCall_rename]
    rcases takeCall count s.stack with ⟨e, rest⟩ | call
    · rfl
    · exact ofAsyncCall_image hρ exe s call keywords
  | wait =>
    simp only [ofOp, stack]
    rcases s.stack with _ | ⟨v, rest⟩
    · rfl
    · cases v <;> simp [image, Session.image, Session.advance, Session.withStack]
  | ret =>
    simp only [ofOp, execute, stack]
    cases s.stack with
    | nil => rfl
    | cons v rest =>
      have activations : (s.image ρ).activations = s.activations.map (Activation.rename ρ) := rfl
      simp only [List.map_cons, returnValue, activations]
      cases s.activations with
      | nil => rfl
      | cons latest others =>
        simp only [List.map_cons, Activation.rename]
        cases latest.returnIp <;> rfl
  | makeClosure function =>
    simp only [ofOp, execute, Session.bindings?_image]
    cases exe.function? function with
    | none => rfl
    | some info =>
      cases s.bindings? with
      | none => rfl
      | some captured =>
        simp [ofTurn, Turn.goOn, image, Session.image, Session.advance, Session.withStack,
          Bindings.rename]
  | operate op =>
    simp only [ofOp, execute, stack]
    rcases s.stack with _ | ⟨right, _ | ⟨left, rest⟩⟩
    · rfl
    · rfl
    · simp only [List.map_cons, Operator.apply_rename hρ]
      cases op.apply left right <;> rfl

/-- A session whose tasks are renamed makes the same request with the renamed tasks in it. -/
theorem request_image (hρ : Function.Injective ρ) {exe : Executable}
    (hexe : ∀ t, ¬ exe.Mentions (.future t)) (s : Session) :
    request exe (s.image ρ) = (request exe s).image ρ := by
  have ip : (s.image ρ).ip = s.ip := rfl
  simp only [request, ip]
  cases hi : exe.instruction? s.ip with
  | none => rfl
  | some i =>
    refine Request.ofOp_image hρ fun v hv t ht => hexe t ⟨i, ?_, v, hv, ht⟩
    exact List.mem_of_getElem? hi

end Requests

end Teal
