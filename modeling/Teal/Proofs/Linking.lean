import Mathlib.Algebra.Ring.Nat
import Teal.Proofs.Names
import Teal.Proofs.Simulation

/-!
# Regions and their code

The regions of a program are the functions of its definitions and all functions that regions make.
Closures are numbered one after the other through all regions, so no two functions have one name
unless two definitions have; and every region finds its code where its entry says.

## Main definitions

* `Region.Consecutive`: regions are numbered one after the other.
* `Region.made`: the functions that regions make.
* `Evaluator.Lists`: functions are those of a program.

## Main statements

* `regionsFrom_perm`: the regions are what was given and what they make.
* `Evaluator.lists_numberedFunctions`, `Executable.links_of_compile`.
-/

namespace Teal

namespace Expr

theorem takeWhile_closureName (base : String) (n : Nat) :
    (closureName base n).toList.reverse.takeWhile (· ≠ ':') = (Nat.toDigits 10 n).reverse := by
  have hdigits : ∀ c ∈ (Nat.toDigits 10 n).reverse, decide (c ≠ ':') = true := by
    intro c hc
    have hdigit := Nat.isDigit_of_mem_toDigits (by decide) (by decide) (List.mem_reverse.mp hc)
    refine decide_eq_true fun heq => ?_
    subst heq
    exact absurd hdigit (by decide)
  have hcolon : (":" : String).toList = [':'] := rfl
  simp only [closureName, String.toList_append, Nat.toList_repr, List.reverse_append, hcolon]
  rw [List.takeWhile_append_of_pos hdigits]
  simp

/-- The number of a closure can be read from its name. -/
theorem closureName_inj {a b : String} {m n : Nat} (h : closureName a m = closureName b n) :
    m = n := by
  have hdigits : (Nat.toDigits 10 m).reverse = (Nat.toDigits 10 n).reverse := by
    rw [← takeWhile_closureName a m, h, takeWhile_closureName]
  have hnumber := congrArg (fun ds => Nat.ofDigitChars 10 ds 0) (List.reverse_inj.mp hdigits)
  simpa only [Nat.ofDigitChars_ten_toDigits] using hnumber

theorem colon_mem_closureName (base : String) (n : Nat) : ':' ∈ (closureName base n).toList := by
  simp [closureName]

end Expr

namespace Function

/-- The number of regions of a function and of all functions inside it. -/
def weight (f : Function) : Nat :=
  f.body.functionCount + 1

theorem nested_bodies (f : Function) (next : Nat) :
    (f.nested next).map Function.body = f.body.functions.map Function.body := by
  calc (f.nested next).map Function.body
      = ((f.body.functions.zipIdx next).map Prod.fst).map Function.body := by
        simp only [nested, List.map_map]
        rfl
    _ = f.body.functions.map Function.body := by rw [List.zipIdx_map_fst]

theorem exists_of_mem_nested {f g : Function} {next : Nat} (h : g ∈ f.nested next) :
    ∃ g' ∈ f.body.functions, g'.body = g.body := by
  have hbody : g.body ∈ (f.nested next).map Function.body := List.mem_map_of_mem h
  rw [nested_bodies] at hbody
  exact List.mem_map.mp hbody

end Function

/-! ## Functions inside of expressions -/

namespace Expr

theorem sync_functionsOfAll {items : List Expr}
    (ih : ∀ e ∈ items, e.isSync → ∀ f ∈ e.functions, f.body.isSync) (h : areSync items) :
    ∀ f ∈ functionsOfAll items, f.body.isSync := by
  induction items with
  | nil => simp [functionsOfAll]
  | cons e rest ihRest =>
    simp only [areSync, Bool.and_eq_true] at h
    intro f hf
    rcases List.mem_append.mp hf with hf | hf
    · exact ih e (by simp) h.1 f hf
    · exact ihRest (fun a ha => ih a (by simp [ha])) h.2 f hf

/-- The functions that an expression without tasks makes start none either. -/
theorem sync_functions {e : Expr} (h : e.isSync) : ∀ f ∈ e.functions, f.body.isSync := by
  induction e with
  | literal | symbol | ident => simp [functions]
  | lambda loc params body => simpa [functions, isSync] using h
  | definition loc name params body tag => simpa [functions, isSync] using h
  | argument loc keyword value _ ih =>
    simp only [isSync] at h
    simpa only [functions] using ih h
  | binary loc op left right ihLeft ihRight =>
    simp only [isSync, Bool.and_eq_true] at h
    cases op with
    | assign => simpa only [functions] using ihRight h.2
    | calculate op =>
      intro f hf
      rcases List.mem_append.mp hf with hf | hf
      · exact ihLeft h.1 f hf
      · exact ihRight h.2 f hf
  | call loc callee args ihCallee ihArgs =>
    simp only [isSync, Bool.and_eq_true] at h
    intro f hf
    rcases List.mem_append.mp hf with hf | hf
    · exact sync_functionsOfAll ihArgs h.1 f hf
    · exact ihCallee h.2 f hf
  | async loc inner => simp [isSync] at h
  | await loc inner ih =>
    simp only [isSync] at h
    simpa only [functions] using ih h
  | conditional loc condition consequence alternative ihCondition ihConsequence ihAlternative =>
    simp only [isSync, Bool.and_eq_true] at h
    intro f hf
    rcases List.mem_append.mp hf with hf | hf
    · rcases List.mem_append.mp hf with hf | hf
      · exact ihCondition h.1.1 f hf
      · cases alternative with
        | none => simp [functionsOfElse] at hf
        | some e => exact ihAlternative e rfl h.2 f hf
    · exact ihConsequence h.1.2 f hf
  | block loc items ih =>
    simp only [isSync] at h
    exact sync_functionsOfAll ih h

theorem weight_functionsOfAll {items : List Expr}
    (ih : ∀ e ∈ items, (e.functions.map Function.weight).sum ≤ e.functionCount) :
    ((functionsOfAll items).map Function.weight).sum ≤ functionCountOfAll items := by
  induction items with
  | nil => simp [functionsOfAll, functionCountOfAll]
  | cons e rest ihRest =>
    have first := ih e (by simp)
    have others := ihRest fun a ha => ih a (by simp [ha])
    simp only [functionsOfAll, functionCountOfAll, List.map_append, List.sum_append]
    omega

/-- An expression makes no more functions than are in it. -/
theorem weight_functions (e : Expr) :
    (e.functions.map Function.weight).sum ≤ e.functionCount := by
  induction e with
  | literal | symbol | ident => simp [functions]
  | lambda | definition => simp [functions, functionCount, Function.weight]
  | argument loc keyword value _ ih | await loc value ih | async loc value ih =>
    simpa only [functions, functionCount] using ih
  | binary loc op left right ihLeft ihRight =>
    cases op with
    | assign =>
      simp only [functions, functionCount]
      omega
    | calculate op =>
      simp only [functions, functionCount, List.map_append, List.sum_append]
      omega
  | call loc callee args ihCallee ihArgs =>
    have hargs := weight_functionsOfAll ihArgs
    simp only [functions, functionCount, List.map_append, List.sum_append]
    omega
  | conditional loc condition consequence alternative ihCondition ihConsequence ihAlternative =>
    have hother : ((functionsOfElse alternative).map Function.weight).sum ≤
        functionCountOfElse alternative := by
      cases alternative with
      | none => simp [functionsOfElse]
      | some e => exact ihAlternative e rfl
    simp only [functions, functionCount, List.map_append, List.sum_append]
    omega
  | block loc items ih =>
    simpa only [functions, functionCount] using weight_functionsOfAll ih

end Expr

theorem Function.weight_nested (f : Function) (next : Nat) :
    ((f.nested next).map weight).sum ≤ f.body.functionCount := by
  have hbodies : (f.nested next).map weight = f.body.functions.map weight := by
    have := congrArg (List.map fun e => e.functionCount + 1) (f.nested_bodies next)
    rwa [List.map_map, List.map_map] at this
  rw [hbodies]
  exact f.body.weight_functions

/-! ## Regions -/

namespace Region

def Consecutive : (next : Nat) → List Region → Prop
  | _, [] => True
  | next, r :: rest => r.next = next ∧ Consecutive (next + r.closures) rest

def made (regions : List Region) : List Function :=
  regions.flatMap fun r => r.function.nested r.next

theorem consecutive_append {a b : List Region} {next : Nat} :
    Consecutive next (a ++ b) ↔
      Consecutive next a ∧ Consecutive (next + closuresOfAll a) b := by
  induction a generalizing next with
  | nil => simp [Consecutive, closuresOfAll]
  | cons r rest ih =>
    simp only [List.cons_append, Consecutive, ih, closuresOfAll, Nat.add_assoc, and_assoc]

/-- The functions made are numbered through all regions. -/
theorem made_eq {regions : List Region} {next : Nat} (h : Consecutive next regions) :
    made regions = ((regions.flatMap fun r => r.function.body.functions).zipIdx next).map
      fun (g, n) => g.numbered n := by
  induction regions generalizing next with
  | nil => rfl
  | cons r rest ih =>
    obtain ⟨rfl, h⟩ := h
    have hmade : made (r :: rest) = r.function.nested r.next ++ made rest := rfl
    rw [hmade, ih h, List.flatMap_cons, List.zipIdx_append, List.map_append]
    rfl

theorem family_consecutive (fuel next : Nat) (waiting : List Function) :
    Consecutive next (family fuel next waiting) := by
  induction fuel generalizing next waiting with
  | zero => trivial
  | succ fuel ih =>
    cases waiting with
    | nil => trivial
    | cons f waiting => exact ⟨rfl, ih _ _⟩

/-- With enough fuel, the regions are the functions that waited and all that regions make. -/
theorem family_functions {fuel : Nat} (next : Nat) {waiting : List Function}
    (h : (waiting.map Function.weight).sum ≤ fuel) :
    (family fuel next waiting).map function = waiting ++ made (family fuel next waiting) := by
  induction fuel generalizing next waiting with
  | zero =>
    cases waiting with
    | nil => rfl
    | cons f waiting => simp [Function.weight] at h
  | succ fuel ih =>
    cases waiting with
    | nil => rfl
    | cons f waiting =>
      have hnested := f.weight_nested next
      have hrest : ((waiting ++ f.nested next).map Function.weight).sum ≤ fuel := by
        have hweight : f.weight = f.body.functionCount + 1 := rfl
        simp only [List.map_cons, List.sum_cons] at h
        simp only [List.map_append, List.sum_append]
        omega
      have hfamily : family (fuel + 1) next (f :: waiting) = ⟨f, next⟩ ::
        family fuel (next + (⟨f, next⟩ : Region).closures) (waiting ++ f.nested next) := rfl
      rw [hfamily, List.map_cons, ih _ hrest]
      simp [made]

/-- What the functions inside a body inherit from it holds of all regions. -/
theorem bodies_family {P : Expr → Prop} (inherited : ∀ e, P e → ∀ f ∈ e.functions, P f.body)
    {fuel next : Nat} {waiting : List Function} (h : ∀ f ∈ waiting, P f.body) :
    ∀ r ∈ family fuel next waiting, P r.function.body := by
  induction fuel generalizing next waiting with
  | zero => simp [family]
  | succ fuel ih =>
    cases waiting with
    | nil => simp [family]
    | cons f waiting =>
      intro r hr
      rcases List.mem_cons.mp hr with rfl | hr
      · exact h f (by simp)
      · refine ih (fun g hg => ?_) r hr
        rcases List.mem_append.mp hg with hg | hg
        · exact h g (by simp [hg])
        · obtain ⟨g', hg', hbody⟩ := Function.exists_of_mem_nested hg
          exact hbody ▸ inherited f.body (h f (by simp)) g' hg'

end Region

theorem regionsFrom_consecutive (next : Nat) (functions : List Function) :
    Region.Consecutive next (regionsFrom next functions) := by
  induction functions generalizing next with
  | nil => trivial
  | cons f rest ih =>
    exact Region.consecutive_append.mpr ⟨Region.family_consecutive _ _ _, ih _⟩

/-- The regions are the functions given and all that regions make. -/
theorem regionsFrom_perm (next : Nat) (functions : List Function) :
    ((regionsFrom next functions).map Region.function).Perm
      (functions ++ Region.made (regionsFrom next functions)) := by
  induction functions generalizing next with
  | nil => exact .refl _
  | cons f rest ih =>
    have hfirst : (f.regions next).map Region.function = [f] ++ Region.made (f.regions next) :=
      Region.family_functions next (by simp [Function.weight])
    have hmade (a b : List Region) : Region.made (a ++ b) = Region.made a ++ Region.made b :=
      List.flatMap_append
    simp only [regionsFrom, List.map_append, hfirst, hmade, List.cons_append]
    refine .cons f (((ih _).append_left _).trans ?_)
    exact List.perm_append_comm_assoc _ _ _

theorem bodies_regionsFrom {P : Expr → Prop}
    (inherited : ∀ e, P e → ∀ f ∈ e.functions, P f.body) {next : Nat} {functions : List Function}
    (h : ∀ f ∈ functions, P f.body) : ∀ r ∈ regionsFrom next functions, P r.function.body := by
  induction functions generalizing next with
  | nil => simp [regionsFrom]
  | cons f rest ih =>
    intro r hr
    rcases List.mem_append.mp hr with hr | hr
    · exact Region.bodies_family inherited (by simpa using h f (by simp)) r hr
    · exact ih (fun g hg => h g (by simp [hg])) r hr

/-! ## Names of regions -/

/-- The definitions of a program have different names, and there is nothing else in it. -/
theorem nodup_of_programError? {seen : List String} {program : List Expr}
    (h : programError? seen program = none) :
    ((program.filterMap Expr.function?).map Function.name).Nodup ∧
      ∀ f ∈ program.filterMap Expr.function?, f.name ∉ seen := by
  induction program generalizing seen with
  | nil => simp
  | cons e rest ih =>
    simp only [programError?] at h
    cases hf : e.function? with
    | none => simp [hf] at h
    | some f =>
      simp only [hf] at h
      by_cases hseen : seen.contains f.name
      · rw [if_pos hseen] at h
        cases h
      · rw [if_neg hseen, Option.or_eq_none_iff] at h
        obtain ⟨hnodup, hnew⟩ := ih h.2
        rw [List.filterMap_cons_some hf, List.map_cons, List.nodup_cons]
        refine ⟨⟨fun hmem => ?_, hnodup⟩, fun g hg => ?_⟩
        · obtain ⟨g, hg, hname⟩ := List.mem_map.mp hmem
          exact hnew g hg (by simp [hname])
        · rcases List.mem_cons.mp hg with rfl | hg
          · simpa using hseen
          · exact fun hmem => hnew g hg (List.mem_cons_of_mem _ hmem)

theorem nodup_regionsFrom {functions : List Function} (next : Nat)
    (hnodup : (functions.map Function.name).Nodup) (hnamed : ∀ f ∈ functions, f.Named) :
    ((regionsFrom next functions).map fun r => r.function.name).Nodup := by
  have hperm := (regionsFrom_perm next functions).map Function.name
  rw [List.map_map] at hperm
  refine hperm.nodup_iff.mpr ?_
  rw [Region.made_eq (regionsFrom_consecutive next functions), List.map_append, List.map_map,
    List.nodup_append]
  refine ⟨hnodup, ?_, ?_⟩
  · -- the numbers differ
    have hnumbers : (((regionsFrom next functions).flatMap fun r =>
        r.function.body.functions).zipIdx next).Pairwise fun a b => a.2 ≠ b.2 := by
      rw [← List.pairwise_map, List.zipIdx_map_snd]
      exact List.nodup_range'
    exact List.pairwise_map.mpr (hnumbers.imp fun hne heq => hne (Expr.closureName_inj heq))
  · intro name hname name' hname' heq
    subst heq
    obtain ⟨f, hf, rfl⟩ := List.mem_map.mp hname
    obtain ⟨⟨g, n⟩, -, hgn⟩ := List.mem_map.mp hname'
    exact hnamed f hf (hgn ▸ Expr.colon_mem_closureName g.name n)

/-! ## Entries of regions -/

namespace Table

variable {κ ν : Type} [DecidableEq κ]

theorem get?_eq_none {t : Table κ ν} {key : κ} (h : key ∉ t.map Prod.fst) : get? t key = none := by
  induction t with
  | nil => rfl
  | cons entry rest ih =>
    simp only [List.map_cons, List.mem_cons, not_or] at h
    simp [get?_cons entry.1 entry.2, Ne.symm h.1, ih h.2]

/-- An entry is found at its key if no other entry has this key. -/
theorem get?_of_mem_of_nodup {t : Table κ ν} {entry : κ × ν} (h : (t.map Prod.fst).Nodup)
    (hmem : entry ∈ t) : get? t entry.1 = some entry.2 := by
  induction t with
  | nil => cases hmem
  | cons head rest ih => grind [get?]

variable [LT κ] [DecidableLT κ]

theorem get?_foldl_insert {entries : List (κ × ν)} (h : (entries.map Prod.fst).Nodup)
    (t : Table κ ν) (key : κ) :
    get? (entries.foldl (fun t entry => insert entry.1 entry.2 t) t) key =
      (get? entries key).or (get? t key) := by
  induction entries generalizing t with
  | nil => rfl
  | cons entry rest ih =>
    obtain ⟨k, v⟩ := entry
    simp only [List.map_cons, List.nodup_cons] at h
    rw [List.foldl_cons, ih h.2, get?_insert, get?_cons]
    by_cases hk : k = key
    · subst hk
      simp [get?_eq_none h.1]
    · simp [hk]

/-- Where no two entries have one key, a table is its entries. -/
theorem get?_ofEntries {entries : List (κ × ν)} (h : (entries.map Prod.fst).Nodup) (key : κ) :
    get? (ofEntries entries) key = get? entries key := by
  rw [ofEntries, get?_foldl_insert h, get?_nil, Option.or_none]

end Table

namespace Executable

theorem entries_names (location : Nat) (regions : List Region) :
    (entries location regions).map Prod.fst = regions.map fun r => r.function.name := by
  induction regions generalizing location with
  | nil => rfl
  | cons r rest ih => simp [entries, ih]

theorem get?_entries_of_missing (location : Nat) {regions : List Region} {name : String}
    (h : Evaluator.find? regions name = none) :
    Table.get? (entries location regions) name = none := by
  apply Table.get?_eq_none
  rw [entries_names]
  simpa [Evaluator.find?] using h

/-- The entry of a region says where the code of the regions before it ends. -/
theorem get?_entries_of_found (location : Nat) {regions : List Region} {name : String} {r : Region}
    (h : Evaluator.find? regions name = some r) : ∃ a b, regions = a ++ r :: b ∧
      Table.get? (entries location regions) name = some
        ⟨location + (a.flatMap Region.code).length, r.function.params, r.function.tag⟩ := by
  induction regions generalizing location with
  | nil => cases h
  | cons first rest ih =>
    simp only [Evaluator.find?, List.find?_cons] at h
    by_cases hname : first.function.name = name
    · simp only [hname, decide_true, Option.some.injEq] at h
      subst h
      exact ⟨[], rest, rfl, by simp [entries, hname]⟩
    · simp only [hname, decide_false] at h
      obtain ⟨a, b, rfl, hget⟩ := ih (location + first.code.length) h
      refine ⟨first :: a, b, rfl, ?_⟩
      simp [entries, hname, hget, Nat.add_assoc]

/-- The code of a region stands where the code of the regions before it ends. -/
theorem has_link (a : List Region) (r : Region) (b : List Region) :
    (link (a ++ r :: b)).Has (a.flatMap Region.code).length r.code := by
  have hcode : (link (a ++ r :: b)).Has 0
      ((a.flatMap Region.code ++ r.code) ++ b.flatMap Region.code) := by
    intro k i hk
    simpa [link, instruction?] using hk
  simpa using hcode.left.right

end Executable

/-! ## Programs -/

/-- Functions are those of a program: its definitions and, under the names of their closures, all
functions that functions make. No two have one name. -/
structure Evaluator.Lists (program : List Expr) (functions : List Region) : Prop where
  distinct : (functions.map fun r => r.function.name).Nodup
  defined {e : Expr} {f : Function} : e ∈ program → e.function? = some f →
    f ∈ functions.map Region.function
  nested {r : Region} {k : Nat} {f : Function} : r ∈ functions →
    r.function.body.functions[k]? = some f →
      f.numbered (r.next + k) ∈ functions.map Region.function

section Program

variable {program : List Expr} {exe : Executable}

theorem programError?_of_compile (h : compile program = .ok exe) :
    programError? [] program = none ∧ exe = Executable.link (numberedFunctions program) := by
  unfold compile at h
  cases he : programError? [] program with
  | some e => simp [he] at h
  | none =>
    simp only [he, Except.ok.injEq] at h
    exact ⟨rfl, h.symm⟩

/-- The functions that a region makes are regions, under the names of their closures. -/
theorem numbered_mem_numberedFunctions {r : Region} {k : Nat} {f : Function}
    (hr : r ∈ numberedFunctions program) (hf : r.function.body.functions[k]? = some f) :
    f.numbered (r.next + k) ∈ (numberedFunctions program).map Region.function := by
  have hperm := regionsFrom_perm 0 (program.filterMap Expr.function?)
  refine hperm.mem_iff.mpr (List.mem_append_right _ (List.mem_flatMap.mpr ⟨r, hr, ?_⟩))
  refine List.mem_map.mpr ⟨(f, r.next + k), ?_, rfl⟩
  exact List.mk_add_mem_zipIdx_iff_getElem?.mpr hf

theorem Evaluator.lists_numberedFunctions (h : compile program = .ok exe)
    (hnamed : ∀ f ∈ program.filterMap Expr.function?, f.Named) :
    Evaluator.Lists program (numberedFunctions program) := by
  obtain ⟨hnone, -⟩ := programError?_of_compile h
  have hperm := regionsFrom_perm 0 (program.filterMap Expr.function?)
  refine ⟨nodup_regionsFrom 0 (nodup_of_programError? hnone).1 hnamed, fun {e f} he hf => ?_,
    numbered_mem_numberedFunctions⟩
  exact hperm.mem_iff.mpr (List.mem_append_left _ (List.mem_filterMap.mpr ⟨e, he, hf⟩))

theorem Executable.links_of_compile (h : compile program = .ok exe)
    (hlists : Evaluator.Lists program (numberedFunctions program))
    (hsync : ∀ e ∈ program, e.isSync) : exe.Links (numberedFunctions program) := by
  obtain ⟨-, rfl⟩ := programError?_of_compile h
  have hget (name : String) : (Executable.link (numberedFunctions program)).function? name =
      Table.get? (entries 0 (numberedFunctions program)) name :=
    Table.get?_ofEntries (by rw [entries_names]; exact hlists.distinct) name
  have hfound {name : String} {r : Region}
      (hr : Evaluator.find? (numberedFunctions program) name = some r) :
      ∃ location tag, (link (numberedFunctions program)).function? name =
        some ⟨location, r.function.params, tag⟩ ∧
      (link (numberedFunctions program)).Has location r.code := by
    obtain ⟨a, b, hsplit, hentry⟩ := get?_entries_of_found 0 hr
    refine ⟨_, _, (hget name).trans hentry, ?_⟩
    rw [hsplit, Nat.zero_add]
    exact has_link a r b
  refine ⟨fun {name} hr => (hget name).trans (get?_entries_of_missing 0 hr), hfound,
    fun {r} hr k f hf => ?_, fun {r} hr => ?_⟩
  · obtain ⟨r', hr', hf'⟩ := List.mem_map.mp (hlists.nested hr hf)
    cases hfind : Evaluator.find? (numberedFunctions program)
      (Expr.closureName f.name (r.next + k)) with
    | some r'' =>
      obtain ⟨location, tag, hentry, -⟩ := hfound hfind
      simp [hentry]
    | none =>
      have hname : r'.function.name = Expr.closureName f.name (r.next + k) := by rw [hf']; rfl
      simpa [hname] using List.find?_eq_none.mp hfind r' hr'
  · refine bodies_regionsFrom (fun _ => Expr.sync_functions) (fun f hf => ?_) r hr
    obtain ⟨e, he, hf⟩ := List.mem_filterMap.mp hf
    have := hsync e he
    cases e with
    | definition loc name params body tag =>
      cases hf
      simpa [Expr.isSync] using this
    | _ => cases hf

end Program

end Teal
