import Teal.Executable.Document
import Teal.Proofs.Constants
import Teal.Proofs.Heights

/-!
# Programs as documents

A program is read back from its document, opcodes, operands, source traces and functions alike.
Only a double that is not finite stops the writing, and only an opcode that the reader's table
lacks the reading. The reader in turn takes no document on trust: each instruction has the operands
that its opcode asks for, and each function starts inside the code.

## Main definitions

* `Op.Representable`: the numbers of an operation have 64 bits.
* `First`: the first item of a list with a property.
* `Instruction.Spells`: a document spells an instruction.
* `Executable.Written`, `Executable.Checked`: what writing a program gives, and what is known of
  one that was read.

## Main statements

* `Instruction.ofJson_eq_ok_iff`: the reader of instructions accepts what spells one.
* `Executable.written`, `Executable.checked_of_ofJson`: writing and reading programs.
* `Executable.document_faithful`: both, and the programs of source texts.
-/

namespace Teal

/-! ## Operations and operands -/

namespace Op

def Representable : Op → Prop
  | .jump n | .jumpIf n | .call n _ | .asyncCall n _ =>
    Int64.minValue.toInt ≤ n ∧ n ≤ Int64.maxValue.toInt
  | _ => True

/-- The operands of an opcode are as many as its signature names, each of its kind. -/
def Accepts (opcode : Opcode) (operands : List Value) : Prop :=
  List.Forall₂ (fun kind v => kind.accepts v = true) opcode.signature operands

theorem accepts_operands (op : Op) : Accepts op.opcode op.operands := by
  cases op <;> simp [Accepts, opcode, operands, Opcode.signature, OperandKind.accepts, number,
    Value.kind]

theorem ofOperands_operands {op : Op} (h : op.Representable) :
    ofOperands op.opcode op.operands = .ok op := by
  have back {n : Int} (hn : Int64.minValue.toInt ≤ n ∧ n ≤ Int64.maxValue.toInt) :
      (Int64.ofInt n).toInt = n := Int64.toInt_ofInt_of_le hn.1 (Int.lt_add_one_of_le hn.2)
  cases op with
  | jump n => exact congrArg (fun k => Except.ok (jump k)) (back h)
  | jumpIf n => exact congrArg (fun k => Except.ok (jumpIf k)) (back h)
  | call n keywords => exact congrArg (fun k => Except.ok (call k keywords)) (back h)
  | asyncCall n keywords => exact congrArg (fun k => Except.ok (asyncCall k keywords)) (back h)
  | _ => rfl

/-- Operands make an operation of their opcode only. -/
theorem operands_of_ofOperands {opcode : Opcode} {values : List Value} {op : Op}
    (h : ofOperands opcode values = .ok op) :
    op.opcode = opcode ∧ op.operands = values ∧ op.Representable := by
  have ranged (n : Int64) : Int64.minValue.toInt ≤ n.toInt ∧ n.toInt ≤ Int64.maxValue.toInt :=
    ⟨n.minValue_le_toInt, n.toInt_le⟩
  -- the opcode tells how many operands to look at, and of which of them the kind matters
  cases opcode with
  | pop | wait | ret | operate =>
    cases values <;> cases h
    exact ⟨rfl, rfl, trivial⟩
  | pushValue =>
    rcases values with _ | ⟨v, _ | _⟩ <;> cases h
    exact ⟨rfl, rfl, trivial⟩
  | pushBinding | bind | makeClosure =>
    rcases values with _ | ⟨v, _ | _⟩
    · cases h
    · cases v <;> cases h
      exact ⟨rfl, rfl, trivial⟩
    · cases v <;> cases h
  | jump | jumpIf =>
    rcases values with _ | ⟨v, _ | _⟩
    · cases h
    · cases v <;> cases h
      exact ⟨rfl, by simp [operands, number], ranged _⟩
    · cases v <;> cases h
  | call | asyncCall =>
    rcases values with _ | ⟨v, _ | ⟨w, _ | _⟩⟩
    · cases h
    · cases v <;> cases h
    · cases v <;> first | cases h | cases w <;> cases h
      exact ⟨rfl, by simp [operands, number], ranged _⟩
    · cases v <;> first | cases h | cases w <;> cases h

end Op

namespace Opcode

theorem ofName?_all (opcode : Opcode) : ofName? all opcode.name = some opcode := by
  cases opcode with
  | operate op => cases op <;> rfl
  | _ => rfl

theorem mem_all (opcode : Opcode) : opcode ∈ all :=
  List.mem_of_find?_eq_some opcode.ofName?_all

theorem name_injective : Function.Injective name := by
  intro a b h
  have hab : ofName? all a.name = ofName? all b.name := congrArg (ofName? all) h
  rw [a.ofName?_all, b.ofName?_all] at hab
  exact Option.some.inj hab

/-- A table finds the opcodes in it by their names. -/
theorem ofName?_eq_some_iff {table : List Opcode} {text : String} {opcode : Opcode} :
    ofName? table text = some opcode ↔ opcode ∈ table ∧ opcode.name = text := by
  constructor
  · intro h
    exact ⟨List.mem_of_find?_eq_some h, by simpa using List.find?_some h⟩
  · rintro ⟨hmem, rfl⟩
    cases hfind : ofName? table opcode.name with
    | none => simpa using List.find?_eq_none.mp hfind opcode hmem
    | some found =>
      have hname : found.name = opcode.name := by simpa using List.find?_some hfind
      rw [name_injective hname]

theorem ofName?_eq_none {table : List Opcode} {opcode : Opcode} (h : opcode ∉ table) :
    ofName? table opcode.name = none := by
  cases hfind : ofName? table opcode.name with
  | none => rfl
  | some found =>
    obtain ⟨hmem, hname⟩ := ofName?_eq_some_iff.mp hfind
    exact absurd (name_injective hname ▸ hmem) h

end Opcode

/-! ## Instructions -/

theorem Json.strings?_eq_some_iff {j : Json} {items : List String} :
    j.strings? = some items ↔ j = .strings items := by
  constructor
  · intro h
    obtain ⟨docs, hdocs, h⟩ := Option.bind_eq_some_iff.mp h
    cases j with
    | arr docs' =>
      cases hdocs
      have related := mapM_eq_some_iff.mp h
      clear h
      have hdocs : docs = items.map .str := by
        rw [← List.forall₂_eq_eq_eq, List.forall₂_map_right_iff]
        refine related.imp fun doc item hdoc => ?_
        cases doc with
        | str s => exact congrArg Json.str (Option.some.inj hdoc)
        | _ => cases hdoc
      rw [hdocs]
      rfl
    | _ => cases hdocs
  · rintro rfl
    exact Json.strings?_strings items

namespace Instruction

def Finite (i : Instruction) : Prop :=
  ∀ v ∈ i.op.operands, v.Finite

/-- A document spells an instruction: it has the name of an opcode that a table admits, as many
operands as the opcode takes, each of its kind, and the source trace. -/
def Spells (table : List Opcode) (j : Json) (i : Instruction) : Prop :=
  i.op.opcode ∈ table ∧ Op.Accepts i.op.opcode i.op.operands ∧
    ∃ docs, j = .arr [.str i.op.opcode.name, .arr docs, .strings i.source] ∧
      docs.mapM Value.ofJson? = some i.op.operands

variable {table : List Opcode} {j : Json} {i : Instruction}

theorem ofParts_eq_ok_iff {opcode : Opcode} {operands trace : Json} :
    ofParts opcode operands trace = .ok i ↔ i.op.opcode = opcode ∧ i.op.Representable ∧
      ∃ docs, operands = .arr docs ∧ docs.mapM Value.ofJson? = some i.op.operands ∧
        trace = .strings i.source := by
  constructor
  · intro h
    unfold ofParts at h
    split at h
    · next docs =>
      rw [Value.itemsOfJson?_eq] at h
      split at h
      · cases h
      · cases h
      · next values source hvalues hsource =>
        split at h
        · next op hop =>
          cases h
          obtain ⟨hopcode, hoperands, representable⟩ := Op.operands_of_ofOperands hop
          exact ⟨hopcode, representable, docs, rfl, hoperands ▸ hvalues,
            Json.strings?_eq_some_iff.mp hsource⟩
        · cases h
    · cases h
  · rintro ⟨rfl, representable, docs, rfl, hdocs, rfl⟩
    simp [ofParts, Value.itemsOfJson?_eq, hdocs, Op.ofOperands_operands representable]

/-- The reader accepts what spells an instruction, and nothing else. -/
theorem ofJson_eq_ok_iff :
    ofJson table j = .ok i ↔ Spells table j i ∧ i.op.Representable := by
  constructor
  · intro h
    unfold ofJson at h
    split at h
    · split at h
      · split at h
        · next hname =>
          obtain ⟨rfl, representable, docs, rfl, hdocs, rfl⟩ := ofParts_eq_ok_iff.mp h
          obtain ⟨hmem, rfl⟩ := Opcode.ofName?_eq_some_iff.mp hname
          exact ⟨⟨hmem, i.op.accepts_operands, docs, rfl, hdocs⟩, representable⟩
        · cases h
      · cases h
    · cases h
  · rintro ⟨⟨hmem, -, docs, rfl, hdocs⟩, representable⟩
    simp only [ofJson, Opcode.ofName?_eq_some_iff.mpr ⟨hmem, rfl⟩]
    exact ofParts_eq_ok_iff.mpr ⟨rfl, representable, docs, rfl, hdocs, rfl⟩

/-- What writing an instruction gives. -/
theorem toJson_cases (i : Instruction) :
    (i.Finite ∧ ∃ docs,
      i.toJson = .ok (.arr [.str i.op.opcode.name, .arr docs, .strings i.source]) ∧
      docs.mapM Value.ofJson? = some i.op.operands) ∨
    ∃ x, Value.Within (.float x) i.op.operands ∧ x.isFinite = false ∧
      i.toJson = .error (.unserializable i.op.opcode ⟨x⟩) := by
  have writes := Writes.mapM i.op.operands fun v _ => v.writes
  unfold toJson
  rw [Value.itemsToJson_eq]
  cases hdocs : i.op.operands.mapM Value.toJson with
  | ok docs =>
    rw [hdocs] at writes
    exact .inl ⟨fun v hv x hx => writes.1 x ⟨v, hv, hx⟩, docs, rfl, writes.2⟩
  | error e =>
    rw [hdocs] at writes
    exact .inr ⟨e.value, writes.1, writes.2, rfl⟩

def accept (table : List Opcode) (i : Instruction) : Except InstructionError Instruction :=
  if i.op.opcode ∈ table then .ok i else .error (.unknownOpcode i.op.opcode.name)

/-- An instruction is read back from its document if its opcode is known. -/
theorem ofJson_of_toJson (h : i.toJson = .ok j) (representable : i.op.Representable) :
    ofJson table j = i.accept table := by
  rcases i.toJson_cases with ⟨-, docs, hj, hdocs⟩ | ⟨x, -, -, hj⟩
  · cases h.symm.trans hj
    unfold accept
    split
    · next hmem =>
      exact ofJson_eq_ok_iff.mpr ⟨⟨hmem, i.op.accepts_operands, docs, rfl, hdocs⟩, representable⟩
    · next hmem => simp [ofJson, Opcode.ofName?_eq_none hmem]
  · cases h.symm.trans hj

theorem exists_toJson (h : i.Finite) : ∃ j, i.toJson = .ok j := by
  rcases i.toJson_cases with ⟨-, docs, hj, -⟩ | ⟨x, ⟨v, hv, hpart⟩, hinf, -⟩
  · exact ⟨_, hj⟩
  · simp [h v hv x hpart] at hinf

end Instruction

/-! ## Functions -/

theorem FunctionEntry.ofJson?_toJson (info : FunctionEntry) : ofJson? info.toJson = some info := by
  obtain ⟨location, params, tag⟩ := info
  cases tag <;> simp [toJson, ofJson?, Json.record?, Json.required, Json.optional, Json.string?]

/-! ## Code -/

/-- The first item of a list with a property, and how many stand before it. -/
def First {α : Type} (P : α → Prop) (items : List α) (n : Nat) (a : α) : Prop :=
  P a ∧ ∃ before after, items = before ++ a :: after ∧ before.length = n ∧ ∀ b ∈ before, ¬ P b

/-- If an item of a list has a property, one is the first that has it. -/
theorem exists_first {α : Type} {P : α → Prop} {items : List α} (h : ∃ a ∈ items, P a) :
    ∃ n a, First P items n a := by
  classical
  obtain ⟨a, ha⟩ : ∃ a, items.find? (fun a => P a) = some a := by
    rw [← Option.isSome_iff_exists, List.find?_isSome]
    simpa using h
  obtain ⟨hP, before, after, rfl, hbefore⟩ := List.find?_eq_some_iff_append.mp ha
  exact ⟨before.length, a, by simpa using hP, before, after, rfl, rfl, by simpa using hbefore⟩

namespace Executable

section Indexed

variable {α β : Type}

/-- Items read or written in order; an error names the item by its index. -/
def indexed (f : α → Except InstructionError β) :
    (index : Nat) → List α → Except ExecutableError (List β)
  | _, [] => .ok []
  | index, a :: rest =>
    match f a with
    | .error cause => .error (.instruction index cause)
    | .ok b => (indexed f (index + 1) rest).map (b :: ·)

theorem codeToJson_eq (index : Nat) (code : List Instruction) :
    codeToJson index code = indexed Instruction.toJson index code := by
  induction code generalizing index with
  | nil => rfl
  | cons i rest ih =>
    simp only [codeToJson, indexed, ih]
    cases i.toJson <;> rfl

theorem codeOfJson_eq (table : List Opcode) (index : Nat) (docs : List Json) :
    codeOfJson table index docs = indexed (Instruction.ofJson table) index docs := by
  induction docs generalizing index with
  | nil => rfl
  | cons j rest ih =>
    simp only [codeOfJson, indexed, ih]
    cases Instruction.ofJson table j <;> rfl

theorem exists_indexed {f : α → Except InstructionError β} {items : List α}
    (h : ∀ a ∈ items, ∃ b, f a = .ok b) (index : Nat) : ∃ bs, indexed f index items = .ok bs := by
  induction items generalizing index with
  | nil => exact ⟨[], rfl⟩
  | cons a rest ih =>
    rw [List.forall_mem_cons] at h
    obtain ⟨b, hb⟩ := h.1
    obtain ⟨bs, hbs⟩ := ih h.2 (index + 1)
    exact ⟨b :: bs, by simp [indexed, hb, hbs, Except.map]⟩

theorem indexed_eq_ok_iff {f : α → Except InstructionError β} {index : Nat} {items : List α}
    {found : List β} :
    indexed f index items = .ok found ↔ List.Forall₂ (fun a b => f a = .ok b) items found := by
  induction items generalizing index found with
  | nil => simp [indexed, eq_comm]
  | cons a rest ih =>
    rw [List.forall₂_cons_left_iff]
    cases ha : f a with
    | error e => simp [indexed, ha]
    | ok b =>
      constructor
      · intro h
        simp only [indexed, ha] at h
        obtain ⟨bs, hbs, rfl⟩ := exists_of_map_eq_ok h
        exact ⟨b, bs, rfl, ih.mp hbs, rfl⟩
      · rintro ⟨b', bs, hb, hbs, rfl⟩
        cases hb
        simp [indexed, ha, ih.mpr hbs, Except.map]

/-- The error is that of the first item that cannot be read or written. -/
theorem indexed_of_first {f : α → Except InstructionError β} {items : List α} {n : Nat} {a : α}
    {cause : InstructionError} {P : α → Prop} (h : First P items n a) (ha : f a = .error cause)
    (hok : ∀ b, ¬ P b → ∃ c, f b = .ok c) (index : Nat) :
    indexed f index items = .error (.instruction (index + n) cause) := by
  obtain ⟨-, before, after, rfl, rfl, hbefore⟩ := h
  induction before generalizing index with
  | nil => simp [indexed, ha]
  | cons b before ih =>
    rw [List.forall_mem_cons] at hbefore
    obtain ⟨c, hc⟩ := hok b hbefore.1
    have hindex : index + 1 + before.length = index + (before.length + 1) := by omega
    simp only [List.cons_append, indexed, hc, ih _ hbefore.2, Except.map, List.length_cons, hindex]

/-- Items that give the same are read alike. -/
theorem indexed_congr {γ : Type} {f : α → Except InstructionError γ}
    {g : β → Except InstructionError γ} {as : List α} {bs : List β}
    (h : List.Forall₂ (fun a b => f a = g b) as bs) (index : Nat) :
    indexed f index as = indexed g index bs := by
  induction h generalizing index with
  | nil => rfl
  | cons hab _ ih => simp only [indexed, hab, ih]

end Indexed

def Located (exe : Executable) : Prop :=
  ∀ entry ∈ exe.functions, entry.2.location < exe.code.length

theorem functionsOfJson?_toJson (functions : Table String FunctionEntry) :
    functionsOfJson? (.obj (functions.map fun (name, info) => (name, info.toJson))) =
      some functions := by
  simp only [functionsOfJson?, Json.object?, Option.bind_some]
  rw [mapM_eq_some_iff, List.forall₂_map_left_iff, List.forall₂_same]
  intro entry _
  simp [FunctionEntry.ofJson?_toJson]

theorem misplaced?_eq_none_iff {functions : Table String FunctionEntry} {length : Nat} :
    misplaced? functions length = none ↔ ∀ entry ∈ functions, entry.2.location < length := by
  simp [misplaced?]

/-! ## Programs -/

/-- What writing a program gives: an error that names the first instruction with a double that is
not finite, or else a document from which any reader that knows its opcodes reads the program
back, while any other names the first instruction that it does not know. -/
structure Written (exe : Executable) : Prop where
  isError_iff : (∃ e, exe.toJson = .error e) ↔ ∃ i ∈ exe.code, ¬ i.Finite
  firstNonFinite {e : ExecutableError} : exe.toJson = .error e →
    ∃ n i x, First (fun i => ¬ i.Finite) exe.code n i ∧ Value.Within (.float x) i.op.operands ∧
      x.isFinite = false ∧ e = .instruction n (.unserializable i.op.opcode ⟨x⟩)
  readBack {j : Json} {table : List Opcode} : exe.toJson = .ok j →
    (∀ i ∈ exe.code, i.op.opcode ∈ table) → ofJson table j = .ok exe
  firstUnknown {j : Json} {table : List Opcode} : exe.toJson = .ok j →
    (∃ i ∈ exe.code, i.op.opcode ∉ table) →
      ∃ n i, First (fun i => i.op.opcode ∉ table) exe.code n i ∧
        ofJson table j = .error (.instruction n (.unknownOpcode i.op.opcode.name))

/-- What is known of a program that was read: its instructions are spelled by the document, and
its functions start inside the code. -/
structure Checked (table : List Opcode) (j : Json) (exe : Executable) : Prop where
  spelled : List.Forall₂ (Instruction.Spells table)
    (((j.field? "code").bind Json.array?).getD []) exe.code
  located : exe.Located

variable {exe : Executable} {table : List Opcode} {j : Json}

/-- The error of a program is that of its first instruction with a double that is not finite. -/
theorem toJson_of_first {n : Nat} {i : Instruction}
    (h : First (fun i => ¬ i.Finite) exe.code n i) :
    ∃ x, Value.Within (.float x) i.op.operands ∧ x.isFinite = false ∧
      exe.toJson = .error (.instruction n (.unserializable i.op.opcode ⟨x⟩)) := by
  rcases i.toJson_cases with ⟨hi, -⟩ | ⟨x, hx, hinf, hj⟩
  · exact absurd hi h.1
  · refine ⟨x, hx, hinf, ?_⟩
    rw [toJson, codeToJson_eq, indexed_of_first h hj fun i hi =>
      Instruction.exists_toJson (not_not.mp hi)]
    simp [Except.map]

/-- A program is read back from its document if its opcodes are known. -/
theorem ofJson_of_toJson (representable : ∀ i ∈ exe.code, i.op.Representable)
    (located : exe.Located) (h : exe.toJson = .ok j) :
    ofJson table j = (indexed (Instruction.accept table) 0 exe.code).map fun _ => exe := by
  obtain ⟨docs, hdocs, rfl⟩ := exists_of_map_eq_ok h
  rw [codeToJson_eq, indexed_eq_ok_iff] at hdocs
  have related : List.Forall₂ (fun j i => Instruction.ofJson table j = i.accept table) docs
      exe.code := by
    refine ((List.forall₂_and_left _ _).mpr ⟨representable, hdocs⟩).flip.imp fun j i hi => ?_
    exact Instruction.ofJson_of_toJson hi.2 hi.1
  have hcode : codeOfJson table 0 docs = indexed (Instruction.accept table) 0 exe.code := by
    rw [codeOfJson_eq, indexed_congr related]
  cases haccept : indexed (Instruction.accept table) 0 exe.code with
  | error e =>
    simp [ofJson, Json.field?, Json.string?, Json.array?, functionsOfJson?_toJson, hcode, haccept,
      Except.map, bind, Except.bind]
  | ok code =>
    have same : code = exe.code := by
      rw [eq_comm, ← List.forall₂_eq_eq_eq]
      refine (indexed_eq_ok_iff.mp haccept).imp fun i i' hi => ?_
      unfold Instruction.accept at hi
      split at hi <;> cases hi
      rfl
    simp [ofJson, Json.field?, Json.string?, Json.array?, functionsOfJson?_toJson, hcode, haccept,
      same, misplaced?_eq_none_iff.mpr located, Except.map, bind, Except.bind]

/-- What writing a program gives. -/
theorem written (representable : ∀ i ∈ exe.code, i.op.Representable) (located : exe.Located) :
    exe.Written := by
  have unfinished (h : ∃ i ∈ exe.code, ¬ i.Finite) :
      ∃ n i x, First (fun i => ¬ i.Finite) exe.code n i ∧ Value.Within (.float x) i.op.operands ∧
        x.isFinite = false ∧
        exe.toJson = .error (.instruction n (.unserializable i.op.opcode ⟨x⟩)) := by
    obtain ⟨n, i, first⟩ := exists_first h
    obtain ⟨x, hx, hinf, hj⟩ := toJson_of_first first
    exact ⟨n, i, x, first, hx, hinf, hj⟩
  have finished (h : ∀ i ∈ exe.code, i.Finite) : ∃ j, exe.toJson = .ok j := by
    obtain ⟨docs, hdocs⟩ := exists_indexed (fun i hi => Instruction.exists_toJson (h i hi)) 0
    exact ⟨_, by rw [toJson, codeToJson_eq, hdocs]; rfl⟩
  refine ⟨⟨?_, fun h => ?_⟩, fun {e} he => ?_, fun {j table} hj known => ?_,
    fun {j table} hj unknown => ?_⟩
  · rintro ⟨e, he⟩
    by_contra hfinite
    obtain ⟨j, hj⟩ := finished (by simpa using hfinite)
    cases he.symm.trans hj
  · obtain ⟨_, _, _, _, _, _, hj⟩ := unfinished h
    exact ⟨_, hj⟩
  · by_cases h : ∃ i ∈ exe.code, ¬ i.Finite
    · obtain ⟨n, i, x, first, hx, hinf, hj⟩ := unfinished h
      exact ⟨n, i, x, first, hx, hinf, Except.error.inj (he.symm.trans hj)⟩
    · obtain ⟨j, hj⟩ := finished (by simpa using h)
      cases he.symm.trans hj
  · have all : indexed (Instruction.accept table) 0 exe.code = .ok exe.code := by
      rw [indexed_eq_ok_iff, List.forall₂_same]
      intro i hi
      rw [Instruction.accept, if_pos (known i hi)]
    rw [ofJson_of_toJson representable located hj, all]
    rfl
  · obtain ⟨n, i, first⟩ := exists_first unknown
    refine ⟨n, i, first, ?_⟩
    have hfirst : i.accept table = .error (.unknownOpcode i.op.opcode.name) := if_neg first.1
    rw [ofJson_of_toJson representable located hj, indexed_of_first first hfirst fun k hk =>
      ⟨k, if_pos (not_not.mp hk)⟩]
    simp [Except.map]

theorem checked_of_ofJson (h : ofJson table j = .ok exe) : exe.Checked table j := by
  simp only [ofJson] at h
  split at h
  · cases h
  split at h
  · cases h
  split at h
  · cases h
  · next functions hfunctions =>
    obtain ⟨code, hcode, h⟩ := exists_of_bind_eq_ok h
    rw [codeOfJson_eq, indexed_eq_ok_iff] at hcode
    split at h
    · cases h
    · next hplaced =>
      cases h
      exact ⟨hcode.imp fun doc i hi => (Instruction.ofJson_eq_ok_iff.mp hi).1,
        misplaced?_eq_none_iff.mp hplaced⟩

end Executable

/-! ## Texts of compiled programs -/

namespace Json

/-- A document is faithful and nests at most `d` deep. -/
structure Shallow (d : Nat) (j : Json) : Prop where
  faithful : j.Faithful
  depth_le : j.depth ≤ d

theorem Shallow.mono {j : Json} {d d' : Nat} (h : j.Shallow d) (hd : d ≤ d') : j.Shallow d' :=
  ⟨h.faithful, Nat.le_trans h.depth_le hd⟩

theorem Shallow.str {s : String} {d : Nat} : (Json.str s).Shallow d :=
  ⟨.str s, Nat.zero_le d⟩

theorem Shallow.nat {n d : Nat} (h : n < UInt64.size) : (Json.nat n).Shallow d :=
  ⟨.nat h, Nat.zero_le d⟩

theorem Shallow.arr {items : List Json} {d : Nat} (h : ∀ j ∈ items, j.Shallow d) :
    (Json.arr items).Shallow (d + 1) := by
  refine ⟨.arr fun j hj => (h j hj).faithful, Nat.succ_le_succ ?_⟩
  induction items with
  | nil => exact Nat.zero_le d
  | cons j rest ih =>
    rw [List.forall_mem_cons] at h
    exact itemsDepth_cons_le.mpr ⟨h.1.depth_le, ih h.2⟩

theorem Shallow.obj {fields : List (String × Json)} {d : Nat} (ordered : Table.Ordered fields)
    (h : ∀ f ∈ fields, f.2.Shallow d) : (Json.obj fields).Shallow (d + 1) := by
  refine ⟨.obj ordered fun f hf => (h f hf).faithful, Nat.succ_le_succ ?_⟩
  clear ordered
  induction fields with
  | nil => exact Nat.zero_le d
  | cons f rest ih =>
    rw [List.forall_mem_cons] at h
    exact fieldsDepth_cons_le.mpr ⟨h.1.depth_le, ih h.2⟩

/-- A record with its names in order. -/
theorem Shallow.record (names : List String) {fields : List (String × Json)} {d : Nat}
    (hnames : fields.map Prod.fst = names) (sorted : names.Pairwise (· < ·))
    (h : ∀ f ∈ fields, f.2.Shallow d) : (Json.obj fields).Shallow (d + 1) :=
  .obj (List.pairwise_map.mp (hnames ▸ sorted)) h

theorem Shallow.strings {items : List String} {d : Nat} : (Json.strings items).Shallow (d + 1) := by
  refine .arr fun j hj => ?_
  obtain ⟨s, -, rfl⟩ := List.mem_map.mp hj
  exact .str

/-- A document that does not nest too deep is read back from its text. -/
theorem Shallow.parse_pretty {j : Json} {d : Nat} (h : j.Shallow d) (hd : d ≤ maxDepth) :
    parse j.pretty = some j := by
  rw [Json.parse_pretty h.faithful, if_pos (Nat.le_trans h.depth_le hd)]

end Json

theorem Value.shallow_constant {v : Value} {j : Json} (h : v.Constant)
    (hexact : ∀ x, Part (.float x) v → Json.Number.Exact x) (hj : v.toJson = .ok j) :
    j.Shallow 1 := by
  have plain := h.plain
  have kept (u : Value) (hu : Part u v) : u.Kept := by
    obtain rfl : u = v := by cases v <;> simp_all [Value.isPlain]
    refine ⟨?_, fun hx => hexact _ (hx ▸ .self)⟩
    cases u <;> trivial
  refine ⟨Value.faithful kept hj, ?_⟩
  cases v with
  | float x =>
    rw [toJson, if_pos (h.finite x .self)] at hj
    cases hj
    exact Nat.le_refl _
  | list | hash | function | closure | future => cases plain
  | _ =>
    cases hj
    exact Nat.le_refl _

/-- The operands of a modest operation are constants and lists of constants. -/
theorem Op.Modest.operands {op : Op} {n : Nat} (h : op.Modest n) : ∀ v ∈ op.operands,
    v.Constant ∨ ∃ items, v = .list items ∧ ∀ k ∈ items, k.Constant := by
  have text (s : String) : (Value.string s).Constant := ⟨rfl, fun x hx => by simp at hx⟩
  have number (n : Int) : (Op.number n).Constant := ⟨rfl, fun x hx => by simp [Op.number] at hx⟩
  cases op with
  | pushValue v => simpa [Op.operands] using .inl h
  | call | asyncCall => simpa [Op.operands, number] using .inr h.2
  | _ => simp [Op.operands, text, number]

/-- The numbers of a modest operation have 64 bits if its code has. -/
theorem Op.Modest.representable {op : Op} {n : Nat} (h : op.Modest n)
    (hn : n ≤ Int64.maxValue.toInt) : op.Representable := by
  have least : Int64.minValue.toInt ≤ 0 := by decide
  cases op with
  | jump | jumpIf => exact ⟨Int.le_trans least h.1, Int.le_trans h.2 hn⟩
  | call | asyncCall => exact ⟨Int.le_trans least h.1.1, Int.le_trans h.1.2 hn⟩
  | _ => trivial

namespace Instruction

variable {i : Instruction} {n : Nat}

theorem finite_of_modest (h : i.op.Modest n) : i.Finite := by
  intro v hv x hx
  rcases h.operands v hv with hv | ⟨items, rfl, hitems⟩
  · exact hv.finite x hx
  · rcases Value.part_list.mp hx with hx | ⟨k, hk, hx⟩
    · cases hx
    · exact (hitems k hk).finite x hx

/-- The document of a modest instruction. -/
theorem shallow_of_modest {j : Json} (h : i.op.Modest n)
    (hexact : ∀ x, Value.Within (.float x) i.op.operands → Json.Number.Exact x)
    (hj : i.toJson = .ok j) : j.Shallow 5 := by
  have operand {v : Value} (hv : v ∈ i.op.operands) {j : Json} (hj : v.toJson = .ok j) :
      j.Shallow 3 := by
    rcases h.operands v hv with constant | ⟨items, rfl, hitems⟩
    · have shallow := Value.shallow_constant constant (fun x hx => hexact x ⟨v, hv, hx⟩) hj
      exact shallow.mono (by decide)
    · rw [Value.toJson, Value.itemsToJson_eq] at hj
      obtain ⟨docs, hdocs, rfl⟩ := exists_of_map_eq_ok hj
      have content : (Json.arr docs).Shallow 2 := .arr fun doc hdoc => by
        obtain ⟨k, hk, hdoc⟩ := exists_of_mem_right (mapM_eq_ok_iff.mp hdocs) hdoc
        exact Value.shallow_constant (hitems k hk)
          (fun x hx => hexact x ⟨_, hv, .item hk hx⟩) hdoc
      refine .record ["type", "value"] rfl (by decide) ?_
      simp [Json.Shallow.str, content]
  unfold toJson at hj
  rw [Value.itemsToJson_eq] at hj
  split at hj <;> cases hj
  next docs hdocs =>
  have operands : (Json.arr docs).Shallow 4 := .arr fun doc hdoc => by
    obtain ⟨v, hv, hdoc⟩ := exists_of_mem_right (mapM_eq_ok_iff.mp hdocs) hdoc
    exact operand hv hdoc
  refine .arr ?_
  simp [Json.Shallow.str, operands, Json.Shallow.strings]

end Instruction

theorem FunctionEntry.shallow {info : FunctionEntry} (h : info.location < UInt64.size) :
    info.toJson.Shallow 2 := by
  have location : (Json.nat info.location).Shallow 1 := .nat h
  unfold toJson
  cases info.tag with
  | none =>
    refine .record ["location", "params"] rfl (by decide) ?_
    simp [location, Json.Shallow.strings]
  | some tag =>
    refine .record ["attribute", "location", "params"] rfl (by decide) ?_
    simp [location, Json.Shallow.strings, Json.Shallow.str]

namespace Executable

variable {exe : Executable} {j : Json}

/-- The document of a program with modest instructions. -/
theorem shallow_of_modest {n : Nat} (modest : ∀ i ∈ exe.code, i.op.Modest n)
    (ordered : exe.functions.Ordered)
    (hlocation : ∀ entry ∈ exe.functions, entry.2.location < UInt64.size)
    (hexact : ∀ i ∈ exe.code, ∀ x, Value.Within (.float x) i.op.operands → Json.Number.Exact x)
    (hj : exe.toJson = .ok j) : j.Shallow 7 := by
  obtain ⟨docs, hdocs, rfl⟩ := exists_of_map_eq_ok hj
  rw [codeToJson_eq, indexed_eq_ok_iff] at hdocs
  have code : (Json.arr docs).Shallow 6 := .arr fun doc hdoc => by
    obtain ⟨i, hi, hdoc⟩ := exists_of_mem_right hdocs hdoc
    exact Instruction.shallow_of_modest (modest i hi) (hexact i hi) hdoc
  have functions :
      (Json.obj (exe.functions.map fun (name, info) => (name, info.toJson))).Shallow 6 := by
    refine .obj (List.pairwise_map.mpr ordered) fun f hf => ?_
    obtain ⟨entry, hentry, rfl⟩ := List.mem_map.mp hf
    exact (FunctionEntry.shallow (hlocation entry hentry)).mono (by decide)
  refine .record ["code", "format", "functions", "version"] rfl (by decide) ?_
  simp [code, functions, Json.Shallow.str, Json.Shallow.nat (by decide : version < UInt64.size)]

theorem located_of_compile {program : List Expr} (h : compile program = .ok exe) :
    exe.functions.Ordered ∧ exe.Located := by
  obtain ⟨height, balanced⟩ := exists_balanced h
  have ordered : exe.functions.Ordered := by
    obtain ⟨-, rfl⟩ := programError?_of_compile h
    exact Table.ordered_ofEntries _
  exact ⟨ordered, fun entry hentry => (balanced.entry (Table.get?_of_mem ordered hentry)).1⟩

/-- A program is read back from its text if its document is, and that is so if its doubles are
read as they are written. -/
def KeptByText (exe : Executable) : Prop :=
  ∃ j, exe.toJson = .ok j ∧ exe.encode = .ok j.pretty ∧
    (Json.parse j.pretty = some j → decode j.pretty = .ok exe) ∧
    ((∀ i ∈ exe.code, ∀ x, Value.Within (.float x) i.op.operands → Json.Number.Exact x) →
      Json.parse j.pretty = some j)

theorem keptByText {source : Source} {program : List Expr} (hparse : source.parse = .ok program)
    (hcompile : compile program = .ok exe) (hcode : exe.code.length ≤ Int64.maxValue.toInt) :
    exe.KeptByText := by
  have modest := modest_of_parse hparse hcompile
  obtain ⟨ordered, located⟩ := located_of_compile hcompile
  have written := written (fun i hi => (modest i hi).representable hcode) located
  obtain ⟨j, hj⟩ : ∃ j, exe.toJson = .ok j := by
    cases hj : exe.toJson with
    | ok j => exact ⟨j, rfl⟩
    | error e =>
      obtain ⟨i, hi, infinite⟩ := written.isError_iff.mp ⟨e, hj⟩
      exact absurd (Instruction.finite_of_modest (modest i hi)) infinite
  refine ⟨j, hj, by rw [encode, hj]; rfl, fun hparse => ?_, fun hexact => ?_⟩
  · simp [decode, hparse, written.readBack hj fun i _ => i.op.opcode.mem_all]
  · have size : exe.code.length < UInt64.size := by
      have : Int64.maxValue.toInt < UInt64.size := by decide
      omega
    refine (shallow_of_modest modest ordered (fun entry hentry => ?_) hexact hj).parse_pretty
      (by decide)
    exact Nat.lt_trans (located entry hentry) size

/-- Programs are written unless they have a double that is not finite, are read back by every
reader that knows their opcodes, and are checked when they are read. The program of a source text
is always written, and read back from its text if the document is. -/
theorem document_faithful :
    (∀ exe : Executable, (∀ i ∈ exe.code, i.op.Representable) → exe.Located → exe.Written) ∧
    (∀ (table : List Opcode) (j : Json) (exe : Executable),
      ofJson table j = .ok exe → exe.Checked table j) ∧
    ∀ (source : Source) (program : List Expr) (exe : Executable),
      source.parse = .ok program → compile program = .ok exe →
      exe.code.length ≤ Int64.maxValue.toInt → exe.KeptByText :=
  ⟨fun _ representable located => written representable located,
    fun _ _ _ h => checked_of_ofJson h,
    fun _ _ _ hparse hcompile hcode => keptByText hparse hcompile hcode⟩

/-- A value of a known kind without doubles. -/
def isWhole : Value → Bool
  | .null | .boolean _ | .integer _ | .string _ | .symbol _ => true
  | .list items => items.all fun v => v.kind = .null
  | _ => false

theorem not_part_of_isWhole {v : Value} (h : isWhole v) (x : Float) :
    ¬ Value.Part (.float x) v := by
  cases v with
  | list items =>
    simp only [isWhole, List.all_eq_true, decide_eq_true_eq] at h
    rw [Value.part_list]
    rintro (hx | ⟨v, hv, hx⟩)
    · cases hx
    · have := h v hv
      cases v <;> simp_all [Value.kind]
  | _ => simp [isWhole] at h ⊢

def greeting : Source where
  filename := "greeting.tl"
  text := "fn main() \x7b print(\"hello\") \x7d"

def compilesWhole (source : Source) : Bool :=
  match source.parse with
  | .error _ => false
  | .ok program =>
    match compile program with
    | .error _ => false
    | .ok exe =>
      decide (exe.code.length ≤ 100) && exe.code.any (fun i => i.op.opcode = .ret) &&
        exe.code.all fun i => i.op.operands.all isWhole

theorem greeting_compilesWhole : compilesWhole greeting := by
  decide +kernel

/-- The program of `greeting` is read back from its text, and its document is refused by a reader
that does not know how to return. -/
theorem document_faithful_greeting : ∃ program exe j, greeting.parse = .ok program ∧
    compile program = .ok exe ∧ exe.toJson = .ok j ∧ decode j.pretty = .ok exe ∧
    (∃ n, ofJson (Opcode.all.erase .ret) j = .error (.instruction n (.unknownOpcode "Return"))) ∧
    exe.Checked Opcode.all j := by
  have h := greeting_compilesWhole
  unfold compilesWhole at h
  split at h
  · cases h
  · next program hparse =>
    split at h
    · cases h
    · next exe hcompile =>
      simp only [Bool.and_eq_true, decide_eq_true_eq, List.any_eq_true, List.all_eq_true] at h
      obtain ⟨⟨hlength, hret⟩, hwhole⟩ := h
      have hcode : exe.code.length ≤ Int64.maxValue.toInt := by
        have : (100 : Int) ≤ Int64.maxValue.toInt := by decide
        omega
      obtain ⟨j, hj, -, hdecode, hexact⟩ :=
        document_faithful.2.2 greeting program exe hparse hcompile hcode
      have hback := hdecode (hexact fun i hi x ⟨v, hv, hx⟩ =>
        absurd hx (not_part_of_isWhole (hwhole i hi v hv) x))
      have modest := modest_of_parse hparse hcompile
      have written := document_faithful.1 exe (fun i hi => (modest i hi).representable hcode)
        (located_of_compile hcompile).2
      obtain ⟨i, hi, hop⟩ := hret
      have missing : ∃ i ∈ exe.code, i.op.opcode ∉ Opcode.all.erase .ret :=
        ⟨i, hi, by rw [hop]; decide⟩
      obtain ⟨n, i, first, hunknown⟩ := written.firstUnknown hj missing
      have hop : i.op.opcode = .ret := by
        by_contra hne
        exact first.1 ((List.mem_erase_of_ne hne).mpr i.op.opcode.mem_all)
      rw [hop] at hunknown
      refine ⟨program, exe, j, hparse, hcompile, hj, hback, ⟨n, hunknown⟩, ?_⟩
      exact document_faithful.2.1 _ _ _ (written.readBack hj fun i _ => i.op.opcode.mem_all)

end Executable

end Teal
