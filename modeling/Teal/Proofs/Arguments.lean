import Mathlib.Data.List.Nodup
import Mathlib.Data.List.Perm.Subperm
import Teal.Machine.Call
import Teal.Proofs.Linking

/-!
# Arguments and parameters

Arguments come in one list, each with a keyword or without. An argument with a keyword goes to the
parameter of that name, and those without fill the parameters that are left, in order. So a call is
a table of parameters, put over what the function has captured; how its arguments with and without
keywords are mixed does not matter.

## Main definitions

* `Value.IsKeyword`: null or a name.
* `namedArguments`, `positionalArguments`: the arguments with a keyword and those without.
* `assignments`: each parameter with its argument.

## Main statements

* `Claims.addAll_eq_ok_iff`: when all arguments can be shared out, and what comes of it.
* `argumentBindings_eq_ok_iff`: when arguments fit the parameters, and the bindings they give.
* `arguments_bind`: the bindings of a call, parameter by parameter, in whatever order its arguments
  come.
-/

namespace Teal

/-! ## Tables -/

namespace Table

section Order

variable {κ ν : Type} [DecidableEq κ] [LE κ] [LT κ] [DecidableLT κ] [Std.IsLinearOrder κ]
  [Std.LawfulOrderLT κ]

/-- Writes at different keys commute. -/
theorem insert_comm {a b : κ} (hab : a ≠ b) (v w : ν) (t : Table κ ν) :
    insert a v (insert b w t) = insert b w (insert a v t) := by
  induction t with
  | nil => grind [insert]
  | cons entry rest ih => grind [insert]

/-- Entries with different keys are written alike in any order. -/
theorem foldl_insert_eq_of_perm {entries entries' : List (κ × ν)} (h : entries'.Perm entries)
    (hnodup : (entries.map Prod.fst).Nodup) (t : Table κ ν) :
    entries'.foldl (fun t entry => insert entry.1 entry.2 t) t =
      entries.foldl (fun t entry => insert entry.1 entry.2 t) t := by
  refine h.foldl_eq' (fun x hx y hy t => ?_) t
  by_cases hkey : x.1 = y.1
  · have hxy : x = y :=
      List.inj_on_of_nodup_map hnodup (h.subset hx) (h.subset hy) hkey
    rw [hxy]
  · exact insert_comm (Ne.symm hkey) y.2 x.2 t

end Order

end Table

/-! ## Sharing out arguments -/

def Value.IsKeyword (v : Value) : Prop :=
  v = .null ∨ ∃ name, v = .symbol name ∨ v = .string name

def namedArguments (pairs : List (Value × Value)) : List (String × Value) :=
  pairs.filterMap fun (arg, keyword) => keyword.text?.map fun name => (name, arg)

def positionalArguments (pairs : List (Value × Value)) : List Value :=
  (pairs.filter fun pair => pair.2.text?.isNone).map Prod.fst

def keywordNames (pairs : List (Value × Value)) : List String :=
  (namedArguments pairs).map Prod.fst

section Pairs

variable {pairs rest : List (Value × Value)} {arg keyword : Value} {name : String}

theorem namedArguments_cons_of_some (h : keyword.text? = some name) :
    namedArguments ((arg, keyword) :: rest) = (name, arg) :: namedArguments rest := by
  simp [namedArguments, h]

theorem namedArguments_cons_of_none (h : keyword.text? = none) :
    namedArguments ((arg, keyword) :: rest) = namedArguments rest := by
  simp [namedArguments, h]

theorem positionalArguments_cons_of_some (h : keyword.text? = some name) :
    positionalArguments ((arg, keyword) :: rest) = positionalArguments rest := by
  simp [positionalArguments, h]

theorem positionalArguments_cons_of_none (h : keyword.text? = none) :
    positionalArguments ((arg, keyword) :: rest) = arg :: positionalArguments rest := by
  simp [positionalArguments, h]

theorem keywordNames_cons_of_some (h : keyword.text? = some name) :
    keywordNames ((arg, keyword) :: rest) = name :: keywordNames rest := by
  rw [keywordNames, namedArguments_cons_of_some h, List.map_cons, keywordNames]

theorem keywordNames_cons_of_none (h : keyword.text? = none) :
    keywordNames ((arg, keyword) :: rest) = keywordNames rest := by
  rw [keywordNames, namedArguments_cons_of_none h, keywordNames]

theorem keywordNames_eq (pairs : List (Value × Value)) :
    keywordNames pairs = (pairs.map Prod.snd).filterMap Value.text? := by
  simp only [keywordNames, namedArguments, List.map_filterMap, List.filterMap_map, Option.map_map]
  exact List.filterMap_congr fun pair _ => Option.map_id'

theorem length_names_add_positional (pairs : List (Value × Value)) :
    (keywordNames pairs).length + (positionalArguments pairs).length = pairs.length := by
  induction pairs with
  | nil => rfl
  | cons pair rest ih =>
    obtain ⟨arg, keyword⟩ := pair
    cases h : keyword.text? with
    | none =>
      rw [keywordNames_cons_of_none h, positionalArguments_cons_of_none h]
      grind
    | some name =>
      rw [keywordNames_cons_of_some h, positionalArguments_cons_of_some h]
      grind

end Pairs

namespace Claims

variable {function : String} {params : List String} {c d : Claims} {arg keyword : Value}
  {name : String} {pairs : List (Value × Value)}

/-- An argument with a keyword takes a parameter that no keyword has taken. -/
theorem add_of_some (h : keyword.text? = some name) :
    c.add function params arg keyword =
      if name ∉ params then .error (.unknownKeyword function name)
      else if name ∈ c.claimed then .error (.duplicateArgument function name)
      else .ok { c with
        claimed := c.claimed ++ [name], bindings := c.bindings.insert name arg } := by
  cases keyword <;> cases h <;> simp [add]

/-- Claims after arguments that could all be shared out. -/
def after (c : Claims) (pairs : List (Value × Value)) : Claims where
  claimed := c.claimed ++ keywordNames pairs
  positional := c.positional ++ positionalArguments pairs
  bindings := bindAll c.bindings (namedArguments pairs)

theorem after_cons_of_some (h : keyword.text? = some name) :
    c.after ((arg, keyword) :: pairs) =
      after { c with claimed := c.claimed ++ [name], bindings := c.bindings.insert name arg }
        pairs := by
  simp [after, keywordNames_cons_of_some h, namedArguments_cons_of_some h,
    positionalArguments_cons_of_some h, bindAll]

theorem after_cons_of_none (h : keyword.text? = none) :
    c.after ((arg, keyword) :: pairs) =
      after { c with positional := c.positional ++ [arg] } pairs := by
  simp [after, keywordNames_cons_of_none h, namedArguments_cons_of_none h,
    positionalArguments_cons_of_none h]

/-- All arguments can be shared out if each keyword takes a parameter of its own. -/
theorem addAll_eq_ok_iff (h : ∀ pair ∈ pairs, pair.2.IsKeyword) :
    c.addAll function params pairs = .ok d ↔
      ((keywordNames pairs).Nodup ∧
        ∀ name ∈ keywordNames pairs, name ∈ params ∧ name ∉ c.claimed) ∧ d = c.after pairs := by
  induction pairs generalizing c with
  | nil => simp [addAll, after, keywordNames, namedArguments, positionalArguments, bindAll, eq_comm]
  | cons pair rest ih =>
    obtain ⟨arg, keyword⟩ := pair
    rw [List.forall_mem_cons] at h
    cases htext : keyword.text? with
    | none =>
      have hnull : keyword = .null := by
        rcases h.1 with hnull | ⟨name, hname | hname⟩
        · exact hnull
        all_goals simp [show keyword = _ from hname, Value.text?] at htext
      subst hnull
      rw [after_cons_of_none htext, keywordNames_cons_of_none htext]
      exact ih h.2
    | some name =>
      rw [after_cons_of_some htext, keywordNames_cons_of_some htext, addAll, add_of_some htext]
      by_cases hparam : name ∈ params
      · by_cases hclaimed : name ∈ c.claimed
        · simp [hparam, hclaimed, bind, Except.bind]
        · simp only [hparam, hclaimed, not_true_eq_false, if_false]
          refine (ih h.2).trans ?_
          grind
      · simp [hparam, bind, Except.bind]

/-- Arguments that cannot be shared out are not too many or too few. -/
theorem addAll_ne_arity (h : ∀ pair ∈ pairs, pair.2.IsKeyword) (f : String) (expected got : Nat) :
    c.addAll function params pairs ≠ .error (.arity f expected got) := by
  induction pairs generalizing c with
  | nil => simp [addAll]
  | cons pair rest ih =>
    obtain ⟨arg, keyword⟩ := pair
    rw [List.forall_mem_cons] at h
    rw [addAll]
    cases hadd : c.add function params arg keyword with
    | ok c' => exact ih h.2
    | error e =>
      intro heq
      cases heq
      unfold add at hadd
      grind

end Claims

/-! ## Parameters and arguments -/

/-- Each parameter with its argument: first those that have a keyword, then the others in order. -/
def assignments (params : List String) (pairs : List (Value × Value)) : List (String × Value) :=
  namedArguments pairs ++
    (params.filter (· ∉ keywordNames pairs)).zip (positionalArguments pairs)

/-- Keywords name different parameters, and there are as many arguments as parameters. -/
structure FitsParams (params : List String) (pairs : List (Value × Value)) : Prop where
  nodup : (keywordNames pairs).Nodup
  subset : ∀ name ∈ keywordNames pairs, name ∈ params
  length : pairs.length = params.length

section Fits

variable {function : String} {params : List String} {captured b : Bindings}
  {pairs : List (Value × Value)} {args keywords : List Value}

theorem Claims.openParams_eq (hparams : params.Nodup) (c : Claims) :
    c.openParams params = params.filter (· ∉ c.claimed) := by
  rw [openParams, ← List.diff_eq_foldl, hparams.sdiff_eq_filter]

/-- Different names of parameters and the parameters that are left make up the parameters. -/
theorem perm_params (hparams : params.Nodup) {names : List String} (hnames : names.Nodup)
    (hsubset : ∀ name ∈ names, name ∈ params) :
    (names ++ params.filter (· ∉ names)).Perm params := by
  have hnodup : (names ++ params.filter (· ∉ names)).Nodup :=
    hnames.append (hparams.filter _) fun name hname hopen => by simp [hname] at hopen
  rw [List.perm_ext_iff_of_nodup hnodup hparams]
  grind

/-- The arguments without a keyword are as many as the parameters that are left just if there are as
many arguments as parameters. -/
theorem length_open_eq_iff (hparams : params.Nodup) (hnodup : (keywordNames pairs).Nodup)
    (hsubset : ∀ name ∈ keywordNames pairs, name ∈ params) :
    (params.filter (· ∉ keywordNames pairs)).length = (positionalArguments pairs).length ↔
      pairs.length = params.length := by
  have hperm := (perm_params hparams hnodup hsubset).length_eq
  have hpairs := length_names_add_positional pairs
  rw [List.length_append] at hperm
  omega

theorem isKeyword_of_mem_zip (h : ∀ k ∈ keywords, k.IsKeyword) (args : List Value) :
    ∀ pair ∈ args.zip keywords, pair.2.IsKeyword :=
  fun pair hpair => h pair.2 (List.of_mem_zip hpair).2

/-- The arguments of a call are shared out, and then fit the parameters or are too many or too
few. -/
theorem argumentBindings_of_length (hlength : keywords.length = args.length) :
    argumentBindings function params captured args keywords =
      (do
        let c ← Claims.addAll function params { bindings := captured } (args.zip keywords)
        let free := c.openParams params
        if free.length ≠ c.positional.length then
          .error (.arity function params.length (params.length - free.length + c.positional.length))
        else .ok (bindAll c.bindings (free.zip c.positional))) := by
  rw [argumentBindings, if_neg (by simp [hlength])]

/-- Arguments fit the parameters if every keyword takes a parameter of its own and there are as many
arguments as parameters. -/
theorem argumentBindings_eq_ok_iff (hparams : params.Nodup)
    (hlength : keywords.length = args.length) (hkeywords : ∀ k ∈ keywords, k.IsKeyword) :
    argumentBindings function params captured args keywords = .ok b ↔
      FitsParams params (args.zip keywords) ∧
        b = bindAll captured (assignments params (args.zip keywords)) := by
  have hpairs := isKeyword_of_mem_zip hkeywords args
  generalize hzip : args.zip keywords = pairs at hpairs
  rw [argumentBindings_of_length hlength, hzip]
  let shared : Claims := Claims.after { bindings := captured } pairs
  have hshared : bindAll shared.bindings ((shared.openParams params).zip shared.positional) =
      bindAll captured (assignments params pairs) := by
    rw [Claims.openParams_eq hparams, bindAll, assignments, bindAll, List.foldl_append]
    rfl
  have hopen (hnodup : (keywordNames pairs).Nodup)
      (hsubset : ∀ name ∈ keywordNames pairs, name ∈ params) :
      (shared.openParams params).length = shared.positional.length ↔
        pairs.length = params.length := by
    rw [Claims.openParams_eq hparams, ← length_open_eq_iff hparams hnodup hsubset]
    rfl
  constructor
  · intro h
    cases hadd : Claims.addAll function params { bindings := captured } pairs with
    | error e => simp [hadd, bind, Except.bind] at h
    | ok c =>
      obtain ⟨⟨hnodup, hnames⟩, rfl⟩ := (Claims.addAll_eq_ok_iff hpairs).mp hadd
      have hsubset : ∀ name ∈ keywordNames pairs, name ∈ params :=
        fun name hname => (hnames name hname).1
      simp only [hadd, bind, Except.bind] at h
      split at h
      · cases h
      · next hfit =>
        cases h
        exact ⟨⟨hnodup, hsubset, (hopen hnodup hsubset).mp (not_not.mp hfit)⟩, hshared⟩
  · rintro ⟨⟨hnodup, hsubset, hcount⟩, rfl⟩
    have hadd : Claims.addAll function params { bindings := captured } pairs = .ok shared := by
      apply (Claims.addAll_eq_ok_iff hpairs).mpr
      exact ⟨⟨hnodup, fun name hname => ⟨hsubset name hname, List.not_mem_nil⟩⟩, rfl⟩
    have hfit := (hopen hnodup hsubset).mpr hcount
    simp only [hadd, bind, Except.bind]
    rw [if_neg (not_not.mpr hfit), hshared]

/-- Arguments that are too many or too few are reported as many as they are. -/
theorem arity_of_argumentBindings (hparams : params.Nodup)
    (hlength : keywords.length = args.length) (hkeywords : ∀ k ∈ keywords, k.IsKeyword)
    {f : String} {expected got : Nat}
    (h : argumentBindings function params captured args keywords =
      .error (.arity f expected got)) : expected = params.length ∧ got = args.length := by
  have hpairs := isKeyword_of_mem_zip hkeywords args
  have hzip : (args.zip keywords).length = args.length := by simp [hlength]
  rw [argumentBindings_of_length hlength] at h
  generalize args.zip keywords = pairs at hpairs hzip h
  cases hadd : Claims.addAll function params { bindings := captured } pairs with
  | error e =>
    simp only [hadd, bind, Except.bind] at h
    cases h
    exact absurd hadd (Claims.addAll_ne_arity hpairs f expected got)
  | ok c =>
    obtain ⟨⟨hnodup, hnames⟩, rfl⟩ := (Claims.addAll_eq_ok_iff hpairs).mp hadd
    simp only [hadd, bind, Except.bind] at h
    split at h
    · cases h
      refine ⟨rfl, ?_⟩
      have hperm := (perm_params hparams hnodup fun name hname => (hnames name hname).1).length_eq
      have hnamed := length_names_add_positional pairs
      rw [List.length_append] at hperm
      rw [Claims.openParams_eq hparams]
      change params.length - (params.filter (· ∉ keywordNames pairs)).length +
        (positionalArguments pairs).length = args.length
      omega
    · cases h

/-! ## Bindings of a call -/

/-- The keys of assignments are the parameters. -/
theorem keys_assignments (hparams : params.Nodup) (h : FitsParams params pairs) :
    ((assignments params pairs).map Prod.fst).Perm params := by
  have hopen := (length_open_eq_iff hparams h.nodup h.subset).mpr h.length
  rw [assignments, List.map_append, List.map_fst_zip (Nat.le_of_eq hopen)]
  exact perm_params hparams h.nodup h.subset

theorem nodup_assignments (hparams : params.Nodup) (h : FitsParams params pairs) :
    ((assignments params pairs).map Prod.fst).Nodup :=
  (keys_assignments hparams h).nodup_iff.mpr hparams

/-- A parameter is bound as it is assigned. -/
theorem get?_bindAll_of_mem (hparams : params.Nodup) (h : FitsParams params pairs)
    {entry : String × Value} (hentry : entry ∈ assignments params pairs) :
    (bindAll captured (assignments params pairs)).get? entry.1 = some entry.2 := by
  have hnodup := nodup_assignments hparams h
  rw [bindAll, Table.get?_foldl_insert hnodup, Table.get?_of_mem_of_nodup hnodup hentry,
    Option.some_or]

/-- What is no parameter is bound as it was captured. -/
theorem get?_bindAll_of_not_mem (hparams : params.Nodup) (h : FitsParams params pairs)
    {name : String} (hname : name ∉ params) :
    (bindAll captured (assignments params pairs)).get? name = captured.get? name := by
  rw [bindAll, Table.get?_foldl_insert (nodup_assignments hparams h), Table.get?_eq_none,
    Option.none_or]
  rwa [(keys_assignments hparams h).mem_iff]

/-- The parameters that no keyword names are bound to the arguments without keywords, in order. -/
theorem map_get?_bindAll (hparams : params.Nodup) (h : FitsParams params pairs) :
    (params.filter (· ∉ keywordNames pairs)).map
        (bindAll captured (assignments params pairs)).get? =
      (positionalArguments pairs).map some := by
  have hopen := (length_open_eq_iff hparams h.nodup h.subset).mpr h.length
  generalize hfree : params.filter (· ∉ keywordNames pairs) = free at hopen
  have hbound : ∀ entry ∈ free.zip (positionalArguments pairs),
      (bindAll captured (assignments params pairs)).get? entry.1 = some entry.2 := by
    intro entry hentry
    apply get?_bindAll_of_mem hparams h
    rw [assignments, hfree]
    exact List.mem_append_right _ hentry
  calc free.map (bindAll captured (assignments params pairs)).get?
      = ((free.zip (positionalArguments pairs)).map Prod.fst).map
          (bindAll captured (assignments params pairs)).get? := by
        rw [List.map_fst_zip (Nat.le_of_eq hopen)]
    _ = ((free.zip (positionalArguments pairs)).map Prod.snd).map some := by
        rw [List.map_map, List.map_map]
        exact List.map_congr_left hbound
    _ = (positionalArguments pairs).map some := by
        rw [List.map_snd_zip (Nat.le_of_eq hopen.symm)]

/-! ## The order of arguments -/

section Order

variable {pairs' : List (Value × Value)}

theorem perm_keywordNames (h : pairs'.Perm pairs) :
    (keywordNames pairs').Perm (keywordNames pairs) :=
  (h.filterMap _).map Prod.fst

theorem FitsParams.of_perm (h : pairs'.Perm pairs) (hfits : FitsParams params pairs) :
    FitsParams params pairs' where
  nodup := (perm_keywordNames h).nodup_iff.mpr hfits.nodup
  subset name hname := hfits.subset name ((perm_keywordNames h).mem_iff.mp hname)
  length := h.length_eq.trans hfits.length

/-- Arguments that come in another order are assigned to the same parameters, if those without a
keyword keep their order. -/
theorem perm_assignments (h : pairs'.Perm pairs)
    (hpositional : positionalArguments pairs' = positionalArguments pairs) :
    (assignments params pairs').Perm (assignments params pairs) := by
  have hfree : params.filter (· ∉ keywordNames pairs') =
      params.filter (· ∉ keywordNames pairs) :=
    List.filter_congr fun name _ => by simp [(perm_keywordNames h).mem_iff]
  rw [assignments, assignments, hpositional, hfree]
  exact (h.filterMap _).append_right _

/-- Arguments that come in another order give the same bindings, if those without a keyword keep
their order. -/
theorem argumentBindings_of_perm (hparams : params.Nodup) {args' keywords' : List Value}
    (hlength : keywords.length = args.length) (hkeywords : ∀ k ∈ keywords, k.IsKeyword)
    (hlength' : keywords'.length = args'.length)
    (hperm : (args'.zip keywords').Perm (args.zip keywords))
    (hpositional : positionalArguments (args'.zip keywords') =
      positionalArguments (args.zip keywords)) :
    argumentBindings function params captured args' keywords' = .ok b ↔
      argumentBindings function params captured args keywords = .ok b := by
  have hmoved : keywords'.Perm keywords := by
    have := hperm.map Prod.snd
    rwa [List.map_snd_zip (Nat.le_of_eq hlength'), List.map_snd_zip (Nat.le_of_eq hlength)] at this
  have hkeywords' : ∀ k ∈ keywords', k.IsKeyword := fun k hk => hkeywords k (hmoved.subset hk)
  rw [argumentBindings_eq_ok_iff hparams hlength hkeywords,
    argumentBindings_eq_ok_iff hparams hlength' hkeywords']
  have hfits : FitsParams params (args'.zip keywords') ↔ FitsParams params (args.zip keywords) :=
    ⟨.of_perm hperm.symm, .of_perm hperm⟩
  rw [hfits]
  refine and_congr_right fun h => ?_
  rw [show bindAll captured (assignments params (args'.zip keywords')) =
    bindAll captured (assignments params (args.zip keywords)) from
      Table.foldl_insert_eq_of_perm (perm_assignments hperm hpositional)
        (nodup_assignments hparams h) captured]

end Order

end Fits

/-- A call fits the parameters just if its keywords name different parameters and it has as many
arguments as there are parameters. Then a parameter that a keyword names is bound to the argument of
this keyword, the parameters that are left are bound to the arguments without a keyword in order,
and all else is as it was captured. In whatever order the arguments come, as long as those without
a keyword keep theirs, the bindings are the same. A call with too many or too few arguments is told
how many parameters there are, and how many arguments it has. -/
theorem arguments_bind {params : List String} (hparams : params.Nodup) {args keywords : List Value}
    (hlength : keywords.length = args.length) (hkeywords : ∀ k ∈ keywords, k.IsKeyword)
    (function : String) (captured : Bindings) :
    let names := keywords.filterMap Value.text?
    let pairs := args.zip keywords
    ((∃ b, argumentBindings function params captured args keywords = .ok b) ↔
      names.Nodup ∧ (∀ name ∈ names, name ∈ params) ∧ args.length = params.length) ∧
    (∀ b, argumentBindings function params captured args keywords = .ok b →
      (∀ pair ∈ pairs, ∀ name, pair.2.text? = some name → b.get? name = some pair.1) ∧
      (params.filter (· ∉ names)).map b.get? = (positionalArguments pairs).map some ∧
      ∀ name, name ∉ params → b.get? name = captured.get? name) ∧
    (∀ args' keywords' : List Value, keywords'.length = args'.length →
      (args'.zip keywords').Perm pairs →
      positionalArguments (args'.zip keywords') = positionalArguments pairs →
      ∀ b, argumentBindings function params captured args' keywords' = .ok b ↔
        argumentBindings function params captured args keywords = .ok b) ∧
    ∀ f expected got, argumentBindings function params captured args keywords =
      .error (.arity f expected got) → expected = params.length ∧ got = args.length := by
  intro names pairs
  have hnames : keywordNames pairs = names := by
    rw [keywordNames_eq, List.map_snd_zip (Nat.le_of_eq hlength)]
  have hcount : pairs.length = args.length := by simp [pairs, hlength]
  refine ⟨⟨?_, ?_⟩, fun b hb => ⟨?_, ?_, ?_⟩,
    fun args' keywords' hlength' hperm hpositional b => ?_,
    fun f expected got h => arity_of_argumentBindings hparams hlength hkeywords h⟩
  · rintro ⟨b, hb⟩
    obtain ⟨hfits, -⟩ := (argumentBindings_eq_ok_iff hparams hlength hkeywords).mp hb
    rw [← hnames, ← hcount]
    exact ⟨hfits.nodup, hfits.subset, hfits.length⟩
  · rintro ⟨hnodup, hsubset, hargs⟩
    rw [← hnames] at hnodup hsubset
    have hfits : FitsParams params pairs := ⟨hnodup, hsubset, hcount.trans hargs⟩
    exact ⟨_, (argumentBindings_eq_ok_iff hparams hlength hkeywords).mpr ⟨hfits, rfl⟩⟩
  · obtain ⟨hfits, rfl⟩ := (argumentBindings_eq_ok_iff hparams hlength hkeywords).mp hb
    intro pair hpair name hname
    have hnamed : (name, pair.1) ∈ namedArguments pairs :=
      List.mem_filterMap.mpr ⟨pair, hpair, by simp [hname]⟩
    exact get?_bindAll_of_mem hparams hfits (List.mem_append_left _ hnamed)
  · obtain ⟨hfits, rfl⟩ := (argumentBindings_eq_ok_iff hparams hlength hkeywords).mp hb
    rw [← hnames]
    exact map_get?_bindAll hparams hfits
  · obtain ⟨hfits, rfl⟩ := (argumentBindings_eq_ok_iff hparams hlength hkeywords).mp hb
    exact fun name hname => get?_bindAll_of_not_mem hparams hfits hname
  · exact argumentBindings_of_perm hparams hlength hkeywords hlength' hperm hpositional

def mixedKeywords : List Value := [.symbol "c", .null, .string "a"]

def mixedArguments : List Value := [.integer 10, .integer 20, .integer 30]

def mixedCaptured : Bindings := [("b", .null), ("z", .integer 9)]

/-- The first argument goes to `c` and the last to `a`, so `b` is left for the other one, which
hides what was captured; with the keywords the other way round the bindings are the same. -/
theorem arguments_bind_mixed : ["a", "b", "c"].Nodup ∧
    mixedKeywords.length = mixedArguments.length ∧ (∀ k ∈ mixedKeywords, k.IsKeyword) ∧
    ∃ b, argumentBindings "f" ["a", "b", "c"] mixedCaptured mixedArguments mixedKeywords = .ok b ∧
      b.get? "c" = some (.integer 10) ∧ ["b"].map b.get? = [some (.integer 20)] ∧
      b.get? "a" = some (.integer 30) ∧ b.get? "z" = some (.integer 9) ∧
      argumentBindings "f" ["a", "b", "c"] mixedCaptured mixedArguments.reverse
        mixedKeywords.reverse = .ok b := by
  have hnodup : ["a", "b", "c"].Nodup := by decide
  have hkeywords : ∀ k ∈ mixedKeywords, k.IsKeyword := by
    simp [mixedKeywords, Value.IsKeyword]
  have hlength : mixedKeywords.length = mixedArguments.length := rfl
  obtain ⟨hfits, hbound, hmoved, -⟩ :=
    arguments_bind hnodup hlength hkeywords "f" mixedCaptured
  obtain ⟨b, hb⟩ := hfits.mpr ⟨by decide, by decide, rfl⟩
  obtain ⟨hnamed, hopen, hother⟩ := hbound b hb
  refine ⟨hnodup, hlength, hkeywords, b, hb, ?_, hopen, ?_, hother "z" (by decide), ?_⟩
  · exact hnamed (.integer 10, .symbol "c") (by simp [mixedArguments, mixedKeywords]) "c" rfl
  · exact hnamed (.integer 30, .string "a") (by simp [mixedArguments, mixedKeywords]) "a" rfl
  · refine (hmoved mixedArguments.reverse mixedKeywords.reverse rfl ?_ rfl b).mpr hb
    exact List.reverse_perm (mixedArguments.zip mixedKeywords)

end Teal
