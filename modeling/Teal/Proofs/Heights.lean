import Teal.Proofs.Linking

/-!
# Heights of the stack

At each place of compiled code the number of values that an activation has on the stack is the
same, whichever way control came there. The code of an expression adds one value, a function
starts with none and returns with one, and jumps stay inside the code. Fragments that fit
together keep this, because jumps are relative.

## Main definitions

* `Op.pops`, `Op.pushes`, `Op.offsets`: what an operation takes, what it leaves and where control
  goes from it.
* `Op.Fits`: an operation fits the heights around it.
* `Balances`: heights can be given to a fragment of code.
* `Executable.Balanced`: heights of a whole program.

## Main statements

* `Expr.balances_code`: the code of an expression adds one value.
* `Executable.exists_balanced`: every compiled program has heights.
-/

namespace Teal

/-- A constant that code may push: anything without parts but functions and futures. -/
def Value.isPlain : Value → Bool
  | .null | .boolean _ | .integer _ | .float _ | .string _ | .symbol _ => true
  | .list _ | .hash _ | .function _ | .closure _ _ | .future _ => false

namespace Op

def pops : Op → Nat
  | .pushValue _ | .pushBinding _ | .makeClosure _ | .jump _ => 0
  | .bind _ | .pop | .jumpIf _ | .wait | .ret => 1
  | .operate _ => 2
  | .call count _ | .asyncCall count _ => count.toNat + 1

def pushes : Op → Nat
  | .pop | .jump _ | .jumpIf _ | .ret => 0
  | _ => 1

/-- The ways control can go from an operation inside its function. -/
def offsets : Op → List Int
  | .jump offset => [offset]
  | .jumpIf offset => [1, offset]
  | .ret => []
  | _ => [1]

/-- An operation has operands of the right shape: a constant is plain, a function is known, and a
call has one keyword or null for each argument. -/
def Sane (exe : Executable) : Op → Prop
  | .pushValue v => v.isPlain
  | .makeClosure function => (exe.function? function).isSome
  | .call count keywords | .asyncCall count keywords =>
    count = keywords.length ∧ ∀ k ∈ keywords, k = .null ∨ ∃ name, k = .symbol name
  | _ => True

/-- An operation at a place fits the heights there and where control goes from it, which is below
`bound`. A function returns with one value. -/
structure Fits (exe : Executable) (height : Nat → Nat) (bound ip : Nat) (op : Op) : Prop where
  sane : op.Sane exe
  enough : op.pops ≤ height ip
  last : op = .ret → height ip = 1
  next {offset : Int} : offset ∈ op.offsets → ∃ target : Nat, (target : Int) = ip + offset ∧
    target < bound ∧ height target + op.pops = height ip + op.pushes

end Op

/-! ## Fragments of code -/

/-- Code that is placed at `start` fits the heights there, and jumps stay below `bound`. -/
def Placed (exe : Executable) (height : Nat → Nat) (bound start : Nat)
    (code : List Instruction) : Prop :=
  ForallAt (fun ip i => i.op.Fits exe height bound ip) start code

/-- Code takes the stack from one height to another, and jumps no further than its end. -/
def Balances (exe : Executable) (code : List Instruction) (before after : Nat) : Prop :=
  ∃ height : Nat → Nat, height 0 = before ∧ height code.length = after ∧
    Placed exe height (code.length + 1) 0 code

section Fragments

variable {exe : Executable} {height : Nat → Nat} {bound start : Nat} {a : List Instruction}

/-- Whether code fits does not depend on where it is placed. -/
theorem Placed.shift {inner : Nat → Nat} {n : Nat} (h : Placed exe inner n 0 a) (hn : a.length ≤ n)
    (same : ∀ k < n, height (start + k) = inner k) (hbound : start + n ≤ bound) :
    Placed exe height bound start a := by
  intro k i hk
  have hlt : k < a.length := (List.getElem?_eq_some_iff.mp hk).1
  obtain ⟨sane, enough, last, next⟩ := h k i hk
  rw [Nat.zero_add] at enough last next
  have here : height (start + k) = inner k := same k (by omega)
  refine ⟨sane, here ▸ enough, fun hret => here.trans (last hret), fun hoffset => ?_⟩
  obtain ⟨target, heq, htarget, hheight⟩ := next hoffset
  refine ⟨start + target, by omega, by omega, ?_⟩
  rw [here, same target (by omega), hheight]

end Fragments

namespace Balances

variable {exe : Executable} {a b : List Instruction} {h h' h'' : Nat} {i j : Instruction}

theorem nil : Balances exe [] h h :=
  ⟨fun _ => h, rfl, rfl, forallAt_nil⟩

/-- One instruction that goes on to the next. -/
theorem one (sane : i.op.Sane exe) (hoffsets : i.op.offsets = [1])
    (enough : i.op.pops ≤ h) (heights : h' + i.op.pops = h + i.op.pushes) :
    Balances exe [i] h h' := by
  refine ⟨fun k => if k = 0 then h else h', rfl, rfl, .one ⟨sane, enough, fun hret => ?_, ?_⟩⟩
  · simp [hret, Op.offsets] at hoffsets
  · intro offset hoffset
    obtain rfl : offset = 1 := by simpa [hoffsets] using hoffset
    exact ⟨1, by omega, by simp, heights⟩

/-- Fragments one after the other. -/
theorem append (ha : Balances exe a h h') (hb : Balances exe b h' h'') :
    Balances exe (a ++ b) h h'' := by
  obtain ⟨f, f0, f1, fitsA⟩ := ha
  obtain ⟨g, g0, g1, fitsB⟩ := hb
  let height (k : Nat) : Nat := if k ≤ a.length then f k else g (k - a.length)
  have first (k : Nat) (hk : k ≤ a.length) : height k = f k := if_pos hk
  have second (k : Nat) : height (a.length + k) = g k := by
    simp only [height]
    split
    · obtain rfl : k = 0 := by omega
      simp [f1, g0]
    · simp
  refine ⟨height, (first 0 (by omega)).trans f0, ?_, .append ?_ ?_⟩
  · rw [List.length_append, second, g1]
  · refine fitsA.shift (Nat.le_succ _) (fun k hk => ?_) (by rw [List.length_append]; omega)
    rw [Nat.zero_add]
    exact first k (by omega)
  · refine fitsB.shift (Nat.le_succ _) (fun k _ => ?_) (by rw [List.length_append]; omega)
    rw [Nat.zero_add]
    exact second k

/-- At the end of a fragment an instruction can stand for another that does the same to the
height of the stack. -/
theorem replaceLast (ha : Balances exe (a ++ [i]) h h') (sane : i.op.Sane exe → j.op.Sane exe)
    (hpops : j.op.pops = i.op.pops) (hpushes : j.op.pushes = i.op.pushes)
    (hoffsets : j.op.offsets = i.op.offsets) (hret : j.op ≠ .ret) :
    Balances exe (a ++ [j]) h h' := by
  obtain ⟨height, h0, h1, fits⟩ := ha
  have hlen : (a ++ [j]).length = (a ++ [i]).length := by simp
  refine ⟨height, h0, hlen ▸ h1, hlen ▸ .append (fun k i' hk => ?_) (.one ?_)⟩
  · have hlt : k < a.length := (List.getElem?_eq_some_iff.mp hk).1
    exact fits k i' (by rwa [List.getElem?_append_left hlt])
  · have last := fits a.length i (by simp)
    refine ⟨sane last.sane, hpops ▸ last.enough, fun h => absurd h hret, fun hoffset => ?_⟩
    rw [hpops, hpushes]
    exact last.next (hoffsets ▸ hoffset)

/-- Code that leaves one value and returns it. -/
theorem closed (ha : Balances exe a 0 1) (hi : i.op = .ret) :
    ∃ height, height 0 = 0 ∧ Placed exe height (a ++ [i]).length 0 (a ++ [i]) := by
  obtain ⟨height, h0, h1, fits⟩ := ha
  refine ⟨height, h0, ?_⟩
  rw [List.length_append]
  refine .append fits (.one ?_)
  rw [Nat.zero_add]
  refine ⟨by simp [hi, Op.Sane], by simp [hi, Op.pops, h1], fun _ => h1, ?_⟩
  simp [hi, Op.offsets]

/-- The two branches of a conditional: control jumps to the second one over the first, and from
the end of the first over the second. -/
theorem branch (hi : i.op = .jumpIf (a.length + 2)) (hj : j.op = .jump (b.length + 1))
    (ha : Balances exe a h h') (hb : Balances exe b h h') :
    Balances exe ([i] ++ a ++ [j] ++ b) (h + 1) h' := by
  obtain ⟨f, f0, f1, fitsA⟩ := ha
  obtain ⟨g, g0, g1, fitsB⟩ := hb
  let height (k : Nat) : Nat :=
    if k = 0 then h + 1 else if k ≤ a.length + 1 then f (k - 1) else g (k - (a.length + 2))
  have first (k : Nat) (hk : k ≤ a.length) : height (1 + k) = f k := by
    simp only [height]
    rw [if_neg (by omega), if_pos (by omega), Nat.add_sub_cancel_left]
  have second (k : Nat) : height (a.length + 2 + k) = g k := by
    simp only [height]
    rw [if_neg (by omega), if_neg (by omega), Nat.add_sub_cancel_left]
  have hlen : ([i] ++ a ++ [j] ++ b).length = a.length + 2 + b.length := by
    simp only [List.length_append, List.length_cons, List.length_nil]
    omega
  rw [Balances, hlen]
  refine ⟨height, rfl, (second b.length).trans g1, .append (.append (.append (.one ?_) ?_)
    (.one ?_)) ?_⟩
  · refine ⟨by simp [hi, Op.Sane], by simp [hi, Op.pops, height], by simp [hi], ?_⟩
    intro offset hoffset
    simp only [hi, Op.offsets, List.mem_cons, List.not_mem_nil, or_false] at hoffset
    rcases hoffset with rfl | rfl
    · have here : height 1 = h := (first 0 (Nat.zero_le _)).trans f0
      refine ⟨1, by omega, by omega, ?_⟩
      rw [here, hi]
      rfl
    · have here : height (a.length + 2) = h := (second 0).trans g0
      refine ⟨a.length + 2, by omega, by omega, ?_⟩
      rw [here, hi]
      rfl
  · exact fitsA.shift (Nat.le_succ _) (fun k hk => first k (by omega)) (by simp; omega)
  · have here : height (0 + ([i] ++ a).length) = h' := by
      have := first a.length (Nat.le_refl _)
      rw [show 0 + ([i] ++ a).length = 1 + a.length by simp; omega, this, f1]
    refine ⟨by simp [hj, Op.Sane], by simp [hj, Op.pops], by simp [hj], ?_⟩
    intro offset hoffset
    simp only [hj, Op.offsets, List.mem_cons, List.not_mem_nil, or_false] at hoffset
    subst hoffset
    refine ⟨a.length + 2 + b.length, by simp; omega, by omega, ?_⟩
    rw [here, second, g1]
    simp [hj, Op.pops, Op.pushes]
  · have hstart : 0 + ([i] ++ a ++ [j]).length = a.length + 2 := by
      simp only [List.length_append, List.length_cons, List.length_nil]
      omega
    rw [hstart]
    exact fitsB.shift (Nat.le_succ _) (fun k _ => second k) (by omega)

end Balances

/-! ## Code of expressions -/

namespace Expr

open Executable

variable {exe : Executable} {next : Nat}

theorem balances_codeOfAll {args : List Expr}
    (ih : ∀ a ∈ args, ∀ next, exe.Knows next a.functions →
      ∀ h, Balances exe (a.code next) h (h + 1))
    (hknows : exe.Knows next (functionsOfAll args)) (h : Nat) :
    Balances exe (codeOfAll next args) h (h + args.length) := by
  induction args generalizing next h with
  | nil => exact .nil
  | cons a args ihArgs =>
    have hrest := ihArgs (fun b hb => ih b (by simp [hb])) hknows.right (h + 1)
    rw [show h + (a :: args).length = h + 1 + args.length by simp; omega]
    exact (ih a (by simp) next hknows.left h).append hrest

theorem balances_codeOfRest {items : List Expr}
    (ih : ∀ a ∈ items, ∀ next, exe.Knows next a.functions →
      ∀ h, Balances exe (a.code next) h (h + 1))
    (hknows : exe.Knows next (functionsOfAll items)) (h : Nat) :
    Balances exe (codeOfRest next items) (h + 1) (h + 1) := by
  induction items generalizing next with
  | nil => exact .nil
  | cons a items ihItems =>
    have hrest := ihItems (fun b hb => ih b (by simp [hb])) hknows.right
    have hpop : Balances exe [a.emit .pop] (h + 1) h :=
      .one trivial rfl (by simp [emit, Op.pops]) (by simp [emit, Op.pops, Op.pushes])
    exact (hpop.append (ih a (by simp) next hknows.left h)).append hrest

theorem isPlain_ofLiteral (value : Literal) : (ofLiteral value).isPlain := by
  cases value <;> rfl

/-- A constant, alone. -/
theorem balances_pushValue (self : Expr) {v : Value} (hv : v.isPlain) (h : Nat) :
    Balances exe [self.emit (.pushValue v)] h (h + 1) :=
  .one hv rfl (Nat.zero_le _) rfl

/-- A closure of a function that is known. -/
theorem balances_makeClosure (self : Expr) {function : String}
    (hf : (exe.function? function).isSome) (h : Nat) :
    Balances exe [self.emit (.makeClosure function)] h (h + 1) :=
  .one hf rfl (Nat.zero_le _) rfl

theorem keyword_eq (a : Expr) : a.keyword = .null ∨ ∃ name, a.keyword = .symbol name := by
  unfold keyword
  split
  · exact .inr ⟨_, rfl⟩
  · exact .inl rfl

/-- The callee and the arguments of a call are replaced by one value. -/
theorem balances_call (self : Expr) (args : List Expr) (h : Nat) :
    Balances exe [self.emit (.call args.length (args.map keyword))] (h + args.length + 1)
      (h + 1) := by
  refine .one ⟨by simp, fun k hk => ?_⟩ rfl ?_ ?_
  · obtain ⟨a, -, rfl⟩ := List.mem_map.mp hk
    exact a.keyword_eq
  · simp [emit, Op.pops]
  · simp only [emit, Op.pops, Op.pushes, Int.toNat_natCast]
    omega

/-- The code of an expression adds one value to the stack. -/
theorem balances_code (e : Expr) (hknows : exe.Knows next e.functions) (h : Nat) :
    Balances exe (e.code next) h (h + 1) := by
  induction e generalizing next h with
  | literal loc value => exact balances_pushValue _ (isPlain_ofLiteral value) h
  | symbol loc name => exact balances_pushValue _ rfl h
  | ident loc name => exact .one trivial rfl (Nat.zero_le _) rfl
  | lambda loc params body ih =>
    have hname := hknows 0 ⟨"lambda", params, body, none, none⟩ rfl
    exact balances_makeClosure _ hname h
  | definition loc name params body tag ih =>
    have hname := hknows 0 ⟨name, params, body, tag, some name⟩ rfl
    exact (balances_makeClosure _ hname h).append (.one trivial rfl (Nat.le_add_left _ _) rfl)
  | argument loc keyword value ihKeyword ih => exact ih hknows h
  | binary loc op left right ihLeft ihRight =>
    cases op with
    | assign =>
      exact (ihRight hknows h).append (.one trivial rfl (Nat.le_add_left _ _) rfl)
    | calculate op =>
      refine ((ihLeft hknows.left h).append (ihRight hknows.right (h + 1))).append ?_
      exact .one trivial rfl (Nat.le_add_left _ _) rfl
  | call loc callee args ihCallee ihArgs =>
    refine ((balances_codeOfAll (fun a ha next hk h => ihArgs a ha hk h) hknows.left h).append
      (ihCallee hknows.right _)).append ?_
    exact balances_call _ args h
  | async loc inner ih =>
    cases inner with
    | call loc' callee args =>
      have hcall := ih hknows h
      simp only [code] at hcall ⊢
      exact hcall.replaceLast (fun sane => sane) rfl rfl rfl (fun h => by cases h)
    | _ => exact ih hknows h
  | await loc inner ih =>
    exact (ih hknows h).append (.one trivial rfl (Nat.le_add_left _ _) rfl)
  | conditional loc condition consequence alternative ihCondition ihConsequence ihAlternative =>
    have otherwise (self : Expr) (h : Nat) :
        Balances exe (codeOfElse (next + condition.functions.length)
          (self.emit (.pushValue .null)) alternative) h (h + 1) := by
      cases alternative with
      | none => exact balances_pushValue self rfl h
      | some e => exact ihAlternative e rfl hknows.left.right h
    have chosen : Balances exe (code (next + condition.functions.length +
        (functionsOfElse alternative).length) consequence) h (h + 1) :=
      ihConsequence (by simpa [Nat.add_assoc] using hknows.right) h
    have branches := (otherwise (.conditional loc condition consequence alternative) h).branch
      (i := emit (.conditional loc condition consequence alternative) (.jumpIf _))
      (j := emit (.conditional loc condition consequence alternative) (.jump _)) rfl rfl chosen
    have all := (ihCondition hknows.left.left h).append branches
    simpa only [code, List.append_assoc] using all
  | block loc items ih =>
    cases items with
    | nil => exact balances_pushValue _ rfl h
    | cons first rest =>
      exact (ih first (by simp) hknows.left h).append
        (balances_codeOfRest (fun a ha next hk h => ih a (by simp [ha]) hk h) hknows.right h)

end Expr

/-! ## Programs -/

/-- Heights can be given to the code of a function: it starts with none of its values on the
stack, and control leaves it by returning only. -/
theorem Function.placed_code {exe : Executable} (f : Function) (next : Nat)
    (hknows : exe.Knows next f.body.functions) (hitself : (exe.function? f.name).isSome) :
    ∃ height, height 0 = 0 ∧ Placed exe height (f.code next).length 0 (f.code next) := by
  refine Balances.closed (.append ?_ (f.body.balances_code hknows 0)) rfl
  split
  · next name _ =>
    have hbind : Balances exe [f.body.emit (.bind name)] 1 1 :=
      .one trivial rfl (Nat.le_refl 1) rfl
    exact (f.body.balances_makeClosure hitself 0).append
      (hbind.append (.one trivial rfl (Nat.le_refl 1) rfl))
  · exact .nil

theorem Region.code_ne_nil (r : Region) : r.code ≠ [] := by
  simp [Region.code, Function.code]

/-- Heights of a program: all code fits them, and each function starts with none of its values on
the stack. -/
structure Executable.Balanced (exe : Executable) (height : Nat → Nat) : Prop where
  fits {ip : Nat} {i : Instruction} : exe.instruction? ip = some i →
    i.op.Fits exe height exe.code.length ip
  entry {name : String} {info : FunctionEntry} : exe.function? name = some info →
    info.location < exe.code.length ∧ height info.location = 0

/-- The heights of regions, one after the other. -/
theorem placed_regions {exe : Executable} {regions : List Region}
    (h : ∀ r ∈ regions, ∃ height, height 0 = 0 ∧ Placed exe height r.code.length 0 r.code) :
    ∃ height, Placed exe height (regions.flatMap Region.code).length 0
        (regions.flatMap Region.code) ∧
      ∀ a r b, regions = a ++ r :: b → height (a.flatMap Region.code).length = 0 := by
  induction regions with
  | nil => exact ⟨fun _ => 0, forallAt_nil, by simp⟩
  | cons r rest ih =>
    obtain ⟨f, f0, fitsF⟩ := h r (by simp)
    obtain ⟨g, fitsG, hstarts⟩ := ih fun r hr => h r (by simp [hr])
    let height (k : Nat) : Nat := if k < r.code.length then f k else g (k - r.code.length)
    have first (k : Nat) (hk : k < r.code.length) : height k = f k := if_pos hk
    have second (k : Nat) : height (r.code.length + k) = g k := by
      simp only [height]
      rw [if_neg (by omega), Nat.add_sub_cancel_left]
    refine ⟨height, ?_, fun a r' b hsplit => ?_⟩
    · rw [List.flatMap_cons, List.length_append]
      refine .append (fitsF.shift (Nat.le_refl _) (fun k hk => ?_) (by omega))
        (fitsG.shift (Nat.le_refl _) (fun k _ => ?_) (by omega))
      · rw [Nat.zero_add]
        exact first k hk
      · rw [Nat.zero_add]
        exact second k
    · cases a with
      | nil => exact (first 0 (List.length_pos_iff.mpr r.code_ne_nil)).trans f0
      | cons r'' a =>
        obtain ⟨rfl, hrest⟩ : r = r'' ∧ rest = a ++ r' :: b := by simpa using hsplit
        rw [List.flatMap_cons, List.length_append, second]
        exact hstarts a r' b hrest

namespace Executable

/-- An entry is that of a region, and says where the code of the regions before it ends. -/
theorem region_of_mem_entries {start : Nat} {regions : List Region} {name : String}
    {info : FunctionEntry} (h : (name, info) ∈ entries start regions) :
    ∃ a r b, regions = a ++ r :: b ∧ name = r.function.name ∧
      info = ⟨start + (a.flatMap Region.code).length, r.function.params, r.function.tag⟩ := by
  induction regions generalizing start with
  | nil => cases h
  | cons r rest ih =>
    rcases List.mem_cons.mp h with h | h
    · cases h
      exact ⟨[], r, rest, rfl, rfl, rfl⟩
    · obtain ⟨a, r', b, rfl, hname, rfl⟩ := ih h
      refine ⟨r :: a, r', b, rfl, hname, ?_⟩
      rw [List.flatMap_cons, List.length_append, Nat.add_assoc]

/-- What a program knows by a name is the code of a region of that name. -/
theorem exists_region {regions : List Region} {name : String} {info : FunctionEntry}
    (h : (link regions).function? name = some info) :
    ∃ a r b, regions = a ++ r :: b ∧ name = r.function.name ∧
      info = ⟨(a.flatMap Region.code).length, r.function.params, r.function.tag⟩ := by
  simpa using region_of_mem_entries (Table.mem_ofEntries (Table.mem_of_get? h))

/-- A linked program knows the functions of its regions. -/
theorem isSome_function?_link {regions : List Region} {name : String}
    (h : name ∈ (regions.map Region.function).map Function.name) :
    ((link regions).function? name).isSome := by
  rw [List.map_map] at h
  obtain ⟨info, hinfo⟩ : ∃ info, (name, info) ∈ entries 0 regions := by
    have hname : name ∈ (entries 0 regions).map Prod.fst := by
      rw [entries_names]
      exact h
    obtain ⟨entry, hentry, rfl⟩ := List.mem_map.mp hname
    exact ⟨entry.2, hentry⟩
  exact Table.isSome_get?_ofEntries hinfo

/-- The code of every region of a program has heights. -/
theorem placed_of_mem {program : List Expr} {r : Region} (hr : r ∈ numberedFunctions program) :
    ∃ height, height 0 = 0 ∧
      Placed (link (numberedFunctions program)) height r.code.length 0 r.code := by
  refine r.function.placed_code r.next (fun k f hf => isSome_function?_link ?_)
    (isSome_function?_link ?_)
  · exact List.mem_map_of_mem (numbered_mem_numberedFunctions hr hf)
  · exact List.mem_map_of_mem (List.mem_map_of_mem hr)

/-- Every compiled program has heights. -/
theorem exists_balanced {program : List Expr} {exe : Executable}
    (h : compile program = .ok exe) : ∃ height, exe.Balanced height := by
  obtain ⟨-, rfl⟩ := programError?_of_compile h
  obtain ⟨height, fits, hstarts⟩ := placed_regions fun _ => placed_of_mem
  refine ⟨height, fun {ip i} hi => ?_, fun {name info} hinfo => ?_⟩
  · have := fits ip i hi
    rwa [Nat.zero_add] at this
  · obtain ⟨a, r, b, hsplit, -, rfl⟩ := exists_region hinfo
    refine ⟨?_, hstarts a r b hsplit⟩
    have hpos := List.length_pos_iff.mpr r.code_ne_nil
    simp only [link, hsplit, List.flatMap_append, List.flatMap_cons, List.length_append]
    omega

end Executable

end Teal
