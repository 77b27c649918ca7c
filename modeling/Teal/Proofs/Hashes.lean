import Teal.Machine.Builtin
import Teal.Proofs.Equality

/-!
# What hashes keep

A hash is built from keys and values in turn. A key that came before has its value replaced, and a
new one goes to the end. So the pairs that are kept tell of the pairs that were given: there is one
for each key that is not equal to an earlier one, in the order of these, with the last value that
was given with an equal key. This is an invariant of the building: it relates what is kept to the
pairs read so far.

## Main definitions

* `Value.pairUp`, `Value.inTurn`: arguments as pairs, and pairs as arguments.
* `Value.LastWrites`: some pairs are what is kept of others.

## Main statements

* `Value.LastWrites.put`: writing one more pair.
* `Value.lastWrites_hashOf`: the pairs of a hash.
* `Builtin.hash_keeps_last_writes`: calls of the constructor.
-/

namespace Teal

namespace Value

variable {key value : Value} {given kept : List (Value × Value)} {p q : Value × Value}
  {args : List Value}

/-! ## Arguments as pairs -/

/-- Arguments as pairs of a key and a value; one that is left over is dropped. -/
def pairUp : List Value → List (Value × Value)
  | key :: value :: rest => (key, value) :: pairUp rest
  | _ => []

def inTurn (pairs : List (Value × Value)) : List Value :=
  pairs.flatMap fun p => [p.1, p.2]

theorem inTurn_pairUp (h : args.length % 2 = 0) : inTurn (pairUp args) = args := by
  fun_induction pairUp args with
  | case1 key value rest ih =>
    have hrest : rest.length % 2 = 0 := by simpa [Nat.add_assoc] using h
    simpa [inTurn] using ih hrest
  | case2 args hpair =>
    rcases args with _ | ⟨key, _ | ⟨value, rest⟩⟩
    · rfl
    · cases h
    · exact absurd rfl (hpair key value rest)

theorem pairUp_inTurn (pairs : List (Value × Value)) : pairUp (inTurn pairs) = pairs := by
  induction pairs with
  | nil => rfl
  | cons p rest ih => simpa [inTurn, pairUp] using ih

theorem length_inTurn (pairs : List (Value × Value)) : (inTurn pairs).length % 2 = 0 := by
  induction pairs with
  | nil => rfl
  | cons p rest ih =>
    have hcons : inTurn (p :: rest) = p.1 :: p.2 :: inTurn rest := rfl
    rw [hcons, List.length_cons, List.length_cons]
    omega

def putAll (kept given : List (Value × Value)) : List (Value × Value) :=
  given.foldl (fun kept p => putPair p.1 p.2 kept) kept

theorem putPairs_eq (kept : List (Value × Value)) (args : List Value) :
    putPairs kept args = putAll kept (pairUp args) := by
  fun_induction putPairs kept args with
  | case1 kept key value rest ih => exact ih
  | case2 args kept hpair =>
    rcases args with _ | ⟨key, _ | ⟨value, rest⟩⟩
    · rfl
    · rfl
    · exact absurd rfl (hpair key value rest)

/-! ## Writing a pair -/

def Distinct (pairs : List (Value × Value)) : Prop :=
  pairs.Pairwise fun p q => p.1.same q.1 = false

theorem putPair_of_new (h : ∀ p ∈ kept, p.1.same key = false) :
    putPair key value kept = kept ++ [(key, value)] := by
  induction kept with
  | nil => rfl
  | cons p rest ih =>
    rw [List.forall_mem_cons] at h
    simp [putPair, h.1, ih h.2]

/-- Where the key is that of a pair, the pair gets the new value. -/
theorem putPair_of_old (distinct : Distinct kept) (h : ∃ p ∈ kept, p.1.same key = true) :
    putPair key value kept = kept.map fun p => if p.1.same key then (p.1, value) else p := by
  induction kept with
  | nil => simp at h
  | cons p rest ih =>
    obtain ⟨hfirst, hrest⟩ := List.pairwise_cons.mp distinct
    rw [putPair, List.map_cons]
    by_cases hp : p.1.same key = true
    · have hothers : ∀ q ∈ rest, (if q.1.same key then (q.1, value) else q) = q := by
        intro q hq
        refine if_neg fun hsame => ?_
        exact absurd (same_trans hp (same_symm hsame)) (by simp [hfirst q hq])
      rw [if_pos hp, if_pos hp, List.map_congr_left hothers, List.map_id']
    · have hrest' : ∃ q ∈ rest, q.1.same key = true := by
        simpa [hp] using h
      rw [if_neg hp, if_neg hp, ih hrest hrest']

/-- Writing pairs with distinct keys adds them as they are. -/
theorem putAll_of_distinct (h : Distinct (kept ++ given)) : putAll kept given = kept ++ given := by
  induction given generalizing kept with
  | nil => simp [putAll]
  | cons p given ih =>
    have hnew : ∀ q ∈ kept, q.1.same p.1 = false := by
      intro q hq
      exact (List.pairwise_append.mp h).2.2 q hq p List.mem_cons_self
    have hput : putAll kept (p :: given) = putAll (kept ++ [p]) given :=
      congrArg (putAll · given) (putPair_of_new hnew)
    rw [List.append_cons] at h ⊢
    rw [hput, ih h]

/-! ## What is kept -/

/-- Some pairs are what is kept of others: no two of their keys are equal; their keys come in the
order in which each was given first, and as it was given then; each has the last value that was
given with an equal key; and they have every key that was given. -/
structure LastWrites (given kept : List (Value × Value)) : Prop where
  distinct : Distinct kept
  ordered : kept.Pairwise fun p q =>
    given.findIdx (·.1.same p.1) < given.findIdx (·.1.same q.1)
  first : ∀ p ∈ kept, (given.filter (·.1.same p.1)).head?.map Prod.fst = some p.1
  last : ∀ p ∈ kept, (given.filter (·.1.same p.1)).getLast?.map Prod.snd = some p.2
  complete : ∀ p ∈ given, ∃ q ∈ kept, q.1.same p.1 = true

namespace LastWrites

theorem nil : LastWrites [] [] where
  distinct := .nil
  ordered := .nil
  first := by simp
  last := by simp
  complete := by simp

/-- A key that is kept was given. -/
theorem findIdx_lt (h : LastWrites given kept) (hp : p ∈ kept) :
    given.findIdx (·.1.same p.1) < given.length := by
  obtain ⟨q, hq, -⟩ := Option.map_eq_some_iff.mp (h.first p hp)
  obtain ⟨hmem, hsame⟩ := List.mem_filter.mp (List.mem_of_mem_head? hq)
  exact List.findIdx_lt_length_of_exists ⟨q, hmem, hsame⟩

theorem findIdx_append (h : LastWrites given kept) (hp : p ∈ kept) (more : List (Value × Value)) :
    (given ++ more).findIdx (·.1.same p.1) = given.findIdx (·.1.same p.1) := by
  rw [List.findIdx_append, if_pos (h.findIdx_lt hp)]

theorem ordered_append (h : LastWrites given kept) (more : List (Value × Value)) :
    kept.Pairwise fun p q =>
      (given ++ more).findIdx (·.1.same p.1) < (given ++ more).findIdx (·.1.same q.1) := by
  refine h.ordered.imp_of_mem fun hp hq hlt => ?_
  rwa [h.findIdx_append hp, h.findIdx_append hq]

/-- Where a key was given first does not depend on what is given later. -/
theorem first_append (h : LastWrites given kept) (hp : p ∈ kept) (more : List (Value × Value)) :
    ((given ++ more).filter (·.1.same p.1)).head?.map Prod.fst = some p.1 := by
  have hfirst := h.first p hp
  obtain ⟨q, hq, -⟩ := Option.map_eq_some_iff.mp hfirst
  rw [List.filter_append, List.head?_append, hq, Option.some_or, ← hq, hfirst]

theorem last_append (h : LastWrites given kept) (hp : p ∈ kept) (hq : q.1.same p.1 = false) :
    ((given ++ [q]).filter (·.1.same p.1)).getLast?.map Prod.snd = some p.2 := by
  simpa [List.filter_append, hq] using h.last p hp

theorem last_append_same (given : List (Value × Value)) (hq : q.1.same p.1 = true) :
    ((given ++ [q]).filter (·.1.same p.1)).getLast?.map Prod.snd = some q.2 := by
  simp [List.filter_append, hq]

/-- A pair whose key was given before. -/
theorem put_old (h : LastWrites given kept) (hold : ∃ p ∈ kept, p.1.same key = true) :
    LastWrites (given ++ [(key, value)])
      (kept.map fun p => if p.1.same key then (p.1, value) else p) := by
  have keys (p : Value × Value) : (if p.1.same key then (p.1, value) else p).1 = p.1 := by
    split <;> rfl
  constructor
  case distinct =>
    rw [Distinct, List.pairwise_map]
    simp only [keys]
    exact h.distinct
  case ordered =>
    rw [List.pairwise_map]
    simpa only [keys] using h.ordered_append [(key, value)]
  case first =>
    intro p' hp'
    obtain ⟨p, hp, rfl⟩ := List.mem_map.mp hp'
    rw [keys]
    exact h.first_append hp _
  case last =>
    intro p' hp'
    obtain ⟨p, hp, rfl⟩ := List.mem_map.mp hp'
    rw [keys]
    split
    · next hsame => exact last_append_same given (same_symm hsame)
    · next hsame => exact h.last_append hp (by simpa [same_comm] using hsame)
  case complete =>
    intro g hg
    have kept_same : ∃ q ∈ kept, q.1.same g.1 = true := by
      rcases List.mem_append.mp hg with hg | hg
      · exact h.complete g hg
      · obtain rfl := List.mem_singleton.mp hg
        exact hold
    obtain ⟨q, hq, hsame⟩ := kept_same
    exact ⟨_, List.mem_map_of_mem hq, by rwa [keys]⟩

/-- A pair whose key was not given before. -/
theorem put_new (h : LastWrites given kept) (hkey : key.NaNFree)
    (hnew : ∀ p ∈ kept, p.1.same key = false) :
    LastWrites (given ++ [(key, value)]) (kept ++ [(key, value)]) := by
  have hself : key.same key = true := same_self hkey
  have unseen : ∀ g ∈ given, g.1.same key = false := by
    intro g hg
    obtain ⟨q, hq, hsame⟩ := h.complete g hg
    by_contra hg
    exact absurd (same_trans hsame (by simpa using hg)) (by simp [hnew q hq])
  have hfilter : (given ++ [(key, value)]).filter (·.1.same key) = [(key, value)] := by
    rw [List.filter_append, List.filter_eq_nil_iff.mpr (by simpa using unseen)]
    simp [hself]
  constructor
  case distinct =>
    refine List.pairwise_append.mpr ⟨h.distinct, List.pairwise_singleton _ _, ?_⟩
    simpa using fun k v hp => hnew (k, v) hp
  case ordered =>
    refine List.pairwise_append.mpr ⟨h.ordered_append _, List.pairwise_singleton _ _, ?_⟩
    intro p hp q hq
    obtain rfl := List.mem_singleton.mp hq
    rw [h.findIdx_append hp]
    have habsent : given.findIdx (·.1.same key) = given.length :=
      List.findIdx_eq_length_of_false unseen
    rw [List.findIdx_append, habsent, if_neg (Nat.lt_irrefl _)]
    exact Nat.lt_add_left _ (h.findIdx_lt hp)
  case first =>
    intro p hp
    rcases List.mem_append.mp hp with hp | hp
    · exact h.first_append hp _
    · obtain rfl := List.mem_singleton.mp hp
      rw [hfilter]
      rfl
  case last =>
    intro p hp
    rcases List.mem_append.mp hp with hp | hp
    · exact h.last_append hp (by simpa [same_comm] using hnew p hp)
    · obtain rfl := List.mem_singleton.mp hp
      rw [hfilter]
      rfl
  case complete =>
    intro g hg
    rcases List.mem_append.mp hg with hg | hg
    · obtain ⟨q, hq, hsame⟩ := h.complete g hg
      exact ⟨q, List.mem_append_left _ hq, hsame⟩
    · obtain rfl := List.mem_singleton.mp hg
      exact ⟨_, List.mem_append_right _ hg, hself⟩

/-- Writing one more pair keeps what is to be kept of one more pair. -/
theorem put (h : LastWrites given kept) (hkey : key.NaNFree) :
    LastWrites (given ++ [(key, value)]) (putPair key value kept) := by
  by_cases hold : ∃ p ∈ kept, p.1.same key = true
  · rw [putPair_of_old h.distinct hold]
    exact h.put_old hold
  · have hnew : ∀ p ∈ kept, p.1.same key = false := by simpa using hold
    rw [putPair_of_new hnew]
    exact h.put_new hkey hnew

theorem putAll (h : LastWrites given kept) {more : List (Value × Value)}
    (hkeys : ∀ p ∈ more, p.1.NaNFree) : LastWrites (given ++ more) (putAll kept more) := by
  induction more generalizing given kept with
  | nil => simpa [Value.putAll] using h
  | cons p more ih =>
    rw [List.forall_mem_cons] at hkeys
    rw [List.append_cons]
    exact ih (h.put hkeys.1) hkeys.2

end LastWrites

/-- The pairs of a hash are what is kept of its arguments. -/
theorem lastWrites_hashOf (hkeys : ∀ p ∈ pairUp args, p.1.NaNFree) :
    LastWrites (pairUp args) (hashOf args) := by
  rw [hashOf, putPairs_eq]
  exact LastWrites.nil.putAll hkeys

/-- Pairs with distinct keys are those of their hash. -/
theorem hashOf_inTurn (h : Distinct kept) : hashOf (inTurn kept) = kept := by
  rw [hashOf, putPairs_eq, pairUp_inTurn]
  have hall : Distinct ([] ++ kept) := h
  exact putAll_of_distinct hall

end Value

namespace Builtin

theorem callNamed_hash {args : List Value} (h : args.length % 2 = 0) :
    callNamed "hash" args = .ok (.hash (Value.hashOf args), []) := by
  simp [callNamed, ofName?, invoke, h]

/-- The constructor of hashes keeps the first place and the last value of each key. Of arguments in
pairs, with keys in which every double is a number, it makes a hash and prints nothing: its keys are
those that were given, no two of them equal, each where and as it was given first, and with the last
value that was given with an equal key. Made again from its own pairs, the hash is the same. -/
theorem hash_keeps_last_writes (args : List Value) (heven : args.length % 2 = 0)
    (hkeys : ∀ p ∈ Value.pairUp args, p.1.NaNFree) :
    args = Value.inTurn (Value.pairUp args) ∧
    ∃ kept, callNamed "hash" args = .ok (.hash kept, []) ∧
      Value.LastWrites (Value.pairUp args) kept ∧
      callNamed "hash" (Value.inTurn kept) = .ok (.hash kept, []) := by
  have writes := Value.lastWrites_hashOf hkeys
  refine ⟨(Value.inTurn_pairUp heven).symm, Value.hashOf args, callNamed_hash heven, writes, ?_⟩
  rw [callNamed_hash (Value.length_inTurn _), Value.hashOf_inTurn writes.distinct]

/-- Arguments in which a key is given twice, as two zeros. -/
def zeroKeys : List Value :=
  [.float 0.0, .integer 1, .list [.string "a"], .integer 2, .float (-0.0), .integer 3]

/-- The zero that was given first stays where it was, with the value of the other one. -/
theorem hash_keeps_last_writes_zeroKeys :
    callNamed "hash" zeroKeys =
        .ok (.hash [(.float 0.0, .integer 3), (.list [.string "a"], .integer 2)], []) ∧
      Value.LastWrites (Value.pairUp zeroKeys)
        [(.float 0.0, .integer 3), (.list [.string "a"], .integer 2)] := by
  have zeros : ((0.0 : Float) == -0.0) = true := by decide +kernel
  have numbers : (0.0 : Float).isNaN = false ∧ (-0.0 : Float).isNaN = false := by decide +kernel
  have hcall : callNamed "hash" zeroKeys =
      .ok (.hash [(.float 0.0, .integer 3), (.list [.string "a"], .integer 2)], []) := by
    simp [callNamed_hash, zeroKeys, Value.hashOf, Value.putPairs, Value.putPair, Value.same, zeros]
  have hkeys : ∀ p ∈ Value.pairUp zeroKeys, p.1.NaNFree := by
    intro p hp x hx
    simp only [zeroKeys, Value.pairUp, List.mem_cons, List.not_mem_nil, or_false] at hp
    rcases hp with rfl | rfl | rfl
    · cases hx
      exact numbers.1
    · rcases Value.part_list.mp hx with hx | ⟨v, hv, hx⟩
      · cases hx
      · cases List.mem_singleton.mp hv
        cases hx
    · cases hx
      exact numbers.2
  obtain ⟨-, kept, hkept, writes, -⟩ := hash_keeps_last_writes zeroKeys rfl hkeys
  rw [hcall] at hkept
  cases hkept
  exact ⟨hcall, writes⟩

end Builtin

end Teal
