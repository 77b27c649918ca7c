import Teal.Cli
import Teal.Proofs.Storage

/-!
# Sessions in a directory

A directory has one file for each session. A new text is written beside the old one first and then
put in its place, so no state of the files in between is one in which a session has half a text, and
a write or a rename that fails leaves every session its text. This rests on the names of the files:
an id that is taken has a file of its own, and no file that is written beside another is the file of
any id.

## Main definitions

* `Path.draft`: the file that is written beside another.
* `DirectoryStore.textAt`: the text of a session among files.
* `Disk`: a system that only has files, the states they were in, and the faults to come.
* `Disk.text?`: the text of a session in a directory.
* `Disk.Replaces`: one session has got a new text, and in no state in between any other.
* `Disk.Keeps`: every session has kept its text.

## Main statements

* `DirectoryStore.paths_apart`: files of sessions and files beside them are all different.
* `Disk.closeStore_cases`, `Disk.saveSession_cases`: writing a session to a directory.
-/

namespace Teal

/-! ## Names of files -/

namespace Path

/-- The file that is written beside another before it takes its place. -/
def draft (path : String) : String :=
  path ++ ".tmp"

/-- A directory has one path for each name. -/
theorem join_inj {dir s t : String} : join dir s = join dir t ↔ s = t := by
  unfold join
  split
  · exact String.append_right_inj dir
  · exact String.append_right_inj (dir ++ "/")

theorem join_append (dir s t : String) : join dir (s ++ t) = join dir s ++ t := by
  unfold join
  split <;> simp only [String.append_assoc]

theorem draft_inj {s t : String} : draft s = draft t ↔ s = t :=
  String.append_left_inj ".tmp"

end Path

namespace DirectoryStore

variable {dir id id' name name' : String}

theorem fileName_eq_ok : fileName id = .ok name ↔
    (id ≠ "" ∧ ∀ c ∈ id.toList, isIdPart c) ∧ id ++ ".json" = name := by
  unfold fileName
  split
  · next h => simpa using fun _ => by simpa using h
  · next h => simpa using fun hne hparts => absurd (by simpa [hne] using hparts) h

/-- An id has a file of its own. -/
theorem fileName_inj (h : fileName id = .ok name) (h' : fileName id' = .ok name') :
    name = name' ↔ id = id' := by
  obtain ⟨-, rfl⟩ := fileName_eq_ok.mp h
  obtain ⟨-, rfl⟩ := fileName_eq_ok.mp h'
  exact String.append_left_inj ".json"

/-- The file that is written beside one of a session is not the file of any. -/
theorem draft_ne (dir : String) (h : fileName id = .ok name) (h' : fileName id' = .ok name') :
    Path.draft (Path.join dir name) ≠ Path.join dir name' := by
  obtain ⟨-, rfl⟩ := fileName_eq_ok.mp h
  obtain ⟨-, rfl⟩ := fileName_eq_ok.mp h'
  intro heq
  rw [Path.draft, ← Path.join_append, Path.join_inj] at heq
  simpa using congrArg (fun s => s.toList.getLast?) heq

/-- The files of two sessions and the files that are written beside them are all different. -/
theorem paths_apart (dir : String) (h : fileName id = .ok name) (h' : fileName id' = .ok name')
    (hne : id ≠ id') :
    [Path.join dir name, Path.draft (Path.join dir name), Path.join dir name',
      Path.draft (Path.join dir name')].Nodup := by
  have hname : name ≠ name' := mt (fileName_inj h h').mp hne
  simp [Path.join_inj, Path.draft_inj, hname, (draft_ne dir h h).symm, (draft_ne dir h' h').symm,
    (draft_ne dir h' h).symm, draft_ne dir h h']

/-! ## Texts of sessions -/

section Texts

variable {path : String → String} {files : Table String String} {text : String}

/-- The text of an id in files that stand at the paths of their names; an id that is not taken has
none. -/
def textAt (path : String → String) (files : Table String String) (id : String) : Option String :=
  (fileName id).toOption.bind fun name => files.get? (path name)

theorem textAt_of_ok (h : fileName id = .ok name) :
    textAt path files id = files.get? (path name) := by
  rw [textAt, h]
  rfl

/-- Writing the file of an id writes the text of that id and of no other. -/
theorem textAt_insert (hpath : Function.Injective path) (h : fileName id = .ok name)
    (other : String) : textAt path (files.insert (path name) text) other =
      if id = other then some text else textAt path files other := by
  cases hother : fileName other with
  | error e =>
    have hne : id ≠ other := by
      rintro rfl
      cases h.symm.trans hother
    simp [textAt, hother, Except.toOption, hne]
  | ok name' =>
    rw [textAt_of_ok hother, textAt_of_ok hother, Table.get?_insert]
    simp only [hpath.eq_iff, fileName_inj h hother]

/-- A file that is not that of any id has no influence. -/
theorem textAt_congr {changed : Table String String} {key : String}
    (hkey : ∀ id name, fileName id = .ok name → key ≠ path name)
    (h : ∀ p, key ≠ p → changed.get? p = files.get? p) (other : String) :
    textAt path changed other = textAt path files other := by
  cases hother : fileName other with
  | error e => simp [textAt, hother, Except.toOption]
  | ok name' => rw [textAt_of_ok hother, textAt_of_ok hother, h _ (hkey _ _ hother)]

end Texts

end DirectoryStore

/-! ## Files -/

/-- What goes wrong with a write or a rename: why it fails, and the text that is left in a file that
was only begun to be written. -/
structure Disk.Fault where
  cause : HostError
  begun : Option String := none

/-- A system that only has files. A file that is written is empty at first, and a file that is put
in the place of another is there at once. Writes and renames may fail. -/
structure Disk where
  /-- The texts of the files by their paths. -/
  files : Table String String := []
  /-- The files in the states before, the latest first. -/
  past : List (Table String String) := []
  /-- What goes wrong with the next writes and renames, one after the other. -/
  faults : List (Option Disk.Fault) := []

namespace Disk

open DirectoryStore (fileName)

def put (disk : Disk) (files : Table String String) : Disk :=
  { disk with files, past := disk.files :: disk.past }

def fault? (disk : Disk) : Option Fault :=
  disk.faults.head?.join

def tried (disk : Disk) : Disk :=
  { disk with faults := disk.faults.tail }

def fill (disk : Disk) (path text : String) : Disk :=
  (disk.put (disk.files.insert path "")).put (disk.files.insert path text)

/-- Writes a file. If that fails, the file is as it was or has what was begun. -/
def write (disk : Disk) (path text : String) : Except HostError Unit × Disk :=
  match disk.fault? with
  | none => (.ok (), disk.tried.fill path text)
  | some ⟨cause, none⟩ => (.error cause, disk.tried)
  | some ⟨cause, some begun⟩ => (.error cause, disk.tried.fill path begun)

/-- Puts a file in a place. If that fails, all files are as they were. -/
def rename (disk : Disk) (source target : String) : Except HostError Unit × Disk :=
  match disk.fault?, disk.files.get? source with
  | some fault, _ => (.error fault.cause, disk.tried)
  | none, none => (.error .missing, disk.tried)
  | none, some text => (.ok (), disk.tried.put ((disk.files.erase source).insert target text))

instance : Host (StateM Disk) where
  read path disk := ((disk.files.get? path).elim (.error .missing) .ok, disk)
  write path text disk := disk.write path text
  rename source target disk := disk.rename source target
  createDirectory _ := pure (.error .occupied)
  isFile path disk := (disk.files.contains path, disk)
  isDirectory _ := pure true
  environment _ := pure none

/-! ### Work on a disk -/

section Work

variable {α β ε : Type} {printed : String} {disk : Disk}

theorem run_read (path : String) :
    (Host.read path : StateM Disk _) disk =
      ((disk.files.get? path).elim (.error .missing) .ok, disk) :=
  rfl

theorem run_write (path text : String) :
    (Host.write path text : StateM Disk _) disk = disk.write path text :=
  rfl

theorem run_rename (source target : String) :
    (Host.rename source target : StateM Disk _) disk = disk.rename source target :=
  rfl

/-- A question goes to the disk and prints nothing. -/
theorem run_ask (question : StateM Disk α) (f : α → Cli.Work (StateM Disk) β) :
    (Cli.ask question >>= f) printed disk = f (question disk).1 printed (question disk).2 :=
  rfl

theorem run_orFail_ok (failure : ε → Cli.Failure) (a : α) (f : α → Cli.Work (StateM Disk) β) :
    (Cli.orFail failure (.ok a) >>= f) printed disk = f a printed disk :=
  rfl

end Work

/-! ### Writing a session -/

def text? (dir : String) (files : Table String String) (id : String) : Option String :=
  DirectoryStore.textAt (Path.join dir) files id

/-- Every session still has its text, and had it in each state in between. -/
structure Keeps (dir : String) (before after : Disk) : Prop where
  text?_eq (other : String) : text? dir after.files other = text? dir before.files other
  between : ∃ states, after.past = states ++ before.past ∧
    ∀ files ∈ states, ∀ other, text? dir files other = text? dir before.files other

/-- A session has got a new text, and every other one still has its own; in each state in between,
all of them had their old texts. -/
structure Replaces (dir id text : String) (before after : Disk) : Prop where
  text?_eq (other : String) : text? dir after.files other =
    if id = other then some text else text? dir before.files other
  between : ∃ states, after.past = states ++ before.past ∧
    ∀ files ∈ states, ∀ other, text? dir files other = text? dir before.files other

variable {dir id name : String} {files : Table String String} {disk : Disk}

/-- What is written beside a file of a session touches no session. -/
theorem text?_draft (h : fileName id = .ok name) (text other : String) :
    text? dir (files.insert (Path.draft (Path.join dir name)) text) other =
      text? dir files other :=
  DirectoryStore.textAt_congr (fun _ _ => DirectoryStore.draft_ne dir h)
    (fun _ hne => by rw [Table.get?_insert, if_neg hne]) other

/-- A session gets the text that is put in the place of its file. -/
theorem text?_put (h : fileName id = .ok name) (text other : String) :
    text? dir ((files.erase (Path.draft (Path.join dir name))).insert (Path.join dir name) text)
      other = if id = other then some text else text? dir files other := by
  have herase : text? dir (files.erase (Path.draft (Path.join dir name))) other =
      text? dir files other :=
    DirectoryStore.textAt_congr (fun _ _ => DirectoryStore.draft_ne dir h)
      (fun _ hne => by rw [Table.get?_erase, if_neg hne]) other
  rw [← herase]
  exact DirectoryStore.textAt_insert (fun _ _ => Path.join_inj.mp) h other

theorem exists_of_fault? {fault : Fault} (h : disk.fault? = some fault) :
    some fault ∈ disk.faults :=
  List.mem_of_mem_head? (Option.join_eq_some_iff.mp h)

/-- Nothing that is done beside the file of a session touches any. -/
theorem keeps_fill (h : fileName id = .ok name) (dir text : String) (disk : Disk) :
    Keeps dir disk (disk.tried.fill (Path.draft (Path.join dir name)) text) where
  text?_eq := text?_draft h text
  between := by
    refine ⟨[disk.files.insert (Path.draft (Path.join dir name)) "", disk.files], rfl, ?_⟩
    simp only [List.mem_cons, List.not_mem_nil, or_false, forall_eq_or_imp, forall_eq]
    exact ⟨text?_draft h "", fun _ => trivial⟩

/-- A file is written, or a fault is in the way. -/
theorem write_cases (disk : Disk) (path text : String) :
    disk.write path text = (.ok (), disk.tried.fill path text) ∨
      ∃ fault after, some fault ∈ disk.faults ∧ disk.write path text = (.error fault.cause, after) ∧
        (after = disk.tried ∨ ∃ begun, after = disk.tried.fill path begun) := by
  unfold write
  cases hfault : disk.fault? with
  | none => exact .inl rfl
  | some fault =>
    refine .inr ⟨fault, ?_⟩
    obtain ⟨cause, _ | begun⟩ := fault
    · exact ⟨_, exists_of_fault? hfault, rfl, .inl rfl⟩
    · exact ⟨_, exists_of_fault? hfault, rfl, .inr ⟨begun, rfl⟩⟩

/-- A file that is there is put in a place, or a fault is in the way. -/
theorem rename_cases {source text : String} (h : disk.files.get? source = some text)
    (target : String) :
    disk.rename source target =
        (.ok (), disk.tried.put ((disk.files.erase source).insert target text)) ∨
      ∃ fault, some fault ∈ disk.faults ∧
        disk.rename source target = (.error fault.cause, disk.tried) := by
  unfold rename
  rw [h]
  cases hfault : disk.fault? with
  | none => exact .inl rfl
  | some fault => exact .inr ⟨fault, exists_of_fault? hfault, rfl⟩

theorem run_closeStore (dir name text printed : String) (disk : Disk) :
    (Cli.closeStore (m := StateM Disk) dir [(name, text)]) printed disk =
      match disk.write (Path.draft (Path.join dir name)) text with
      | (.error cause, drafted) => ((.error (Cli.storeFailure cause), printed), drafted)
      | (.ok (), drafted) =>
        match drafted.rename (Path.draft (Path.join dir name)) (Path.join dir name) with
        | (.error cause, after) => ((.error (Cli.storeFailure cause), printed), after)
        | (.ok (), after) => ((.ok (), printed), after) := by
  simp only [Cli.closeStore, run_ask, run_write, Path.draft]
  cases hwrite : disk.write (Path.join dir name ++ ".tmp") text with
  | mk written drafted =>
    cases written with
    | error cause => rfl
    | ok _ =>
      simp only [run_orFail_ok, run_ask, run_rename]
      cases drafted.rename (Path.join dir name ++ ".tmp") (Path.join dir name) with
      | mk renamed after => cases renamed <;> rfl

/-- Writing a session to a directory replaces its text, unless a fault is in the way. -/
theorem closeStore_cases (h : fileName id = .ok name) (dir text printed : String) (disk : Disk) :
    (∃ after, (Cli.closeStore (m := StateM Disk) dir [(name, text)]) printed disk =
      ((.ok (), printed), after) ∧ Replaces dir id text disk after) ∨
    ∃ fault after, some fault ∈ disk.faults ∧
      (Cli.closeStore (m := StateM Disk) dir [(name, text)]) printed disk =
        ((.error (Cli.storeFailure fault.cause), printed), after) ∧ Keeps dir disk after := by
  rw [run_closeStore]
  obtain hwrite | ⟨fault, after, hfault, hwrite, hafter⟩ :=
    write_cases disk (Path.draft (Path.join dir name)) text
  · rw [hwrite]
    dsimp only
    have keeps := keeps_fill h dir text disk
    generalize hdrafted : disk.tried.fill (Path.draft (Path.join dir name)) text = drafted at keeps
    have hdraft : drafted.files.get? (Path.draft (Path.join dir name)) = some text := by
      rw [← hdrafted]
      exact Table.get?_insert_self ..
    obtain hrename | ⟨fault, hfault, hrename⟩ := rename_cases hdraft (Path.join dir name)
    · rw [hrename]
      refine .inl ⟨_, rfl, fun other => ?_, ?_⟩
      · exact (text?_put h text other).trans (by rw [keeps.text?_eq])
      · obtain ⟨states, hpast, hstates⟩ := keeps.between
        refine ⟨drafted.files :: states, congrArg (drafted.files :: ·) hpast, ?_⟩
        exact List.forall_mem_cons.mpr ⟨keeps.text?_eq, hstates⟩
    · rw [hrename]
      refine .inr ⟨fault, _, ?_, rfl, keeps.text?_eq, keeps.between⟩
      rw [← hdrafted] at hfault
      exact List.mem_of_mem_tail hfault
  · rw [hwrite]
    refine .inr ⟨fault, after, hfault, rfl, ?_⟩
    obtain rfl | ⟨begun, rfl⟩ := hafter
    · exact ⟨fun _ => rfl, [], rfl, nofun⟩
    · exact keeps_fill h dir begun disk

-- the old text stays if the new one cannot be put in its place
example : ((Cli.closeStore (m := StateM Disk) "d" [("s.json", "new")]) ""
    { files := [("d/s.json", "old")], faults := [none, some ⟨.occupied, none⟩] }).2.files =
      [("d/s.json", "old"), ("d/s.json.tmp", "new")] := by
  decide +kernel

/-- Saving the world of a scheduler as a session replaces the text of that session by its document,
or fails: either nothing is tried on the disk, or a fault is in the way and all texts are kept. -/
theorem saveSession_cases (dir id : String) (c : Scheduler) (printed : String) (disk : Disk) :
    (∃ failure, (Cli.saveSession (m := StateM Disk) dir id c) printed disk =
      ((.error failure, printed), disk)) ∨
    (∃ j after, c.world.toJson = .ok j ∧
      (Cli.saveSession (m := StateM Disk) dir id c) printed disk = ((.ok (), printed), after) ∧
      Replaces dir id j.pretty disk after) ∨
    ∃ fault after, some fault ∈ disk.faults ∧
      (Cli.saveSession (m := StateM Disk) dir id c) printed disk =
        ((.error (Cli.storeFailure fault.cause), printed), after) ∧ Keeps dir disk after := by
  have hsave : (Cli.saveSession (m := StateM Disk) dir id c) printed disk =
      match Invocation.checkpoint ({} : DirectoryStore) id c.world with
      | .error e => ((.error (.script (.ofInvocation e)), printed), disk)
      | .ok store => (Cli.closeStore (m := StateM Disk) dir store.files) printed disk := by
    unfold Cli.saveSession
    cases Invocation.checkpoint ({} : DirectoryStore) id c.world <;> rfl
  rw [hsave]
  unfold Invocation.checkpoint
  cases hj : c.world.toJson with
  | error cause => exact .inl ⟨_, rfl⟩
  | ok j =>
    cases hname : fileName id with
    | error e => exact .inl ⟨_, by simp [Store.save, DirectoryStore.save, hname]; rfl⟩
    | ok name =>
      right
      simpa [Store.save, DirectoryStore.save, hname, bind, Except.bind, Except.mapError,
        Table.insert] using closeStore_cases hname dir j.pretty printed disk

/-- The store that is opened for a session has its text, and opening it changes nothing. -/
theorem exists_openStore (dir id printed : String) (disk : Disk) :
    ∃ store : DirectoryStore,
      (Cli.openStore (m := StateM Disk) dir id) printed disk = ((.ok store, printed), disk) ∧
      DirectoryStore.textAt (fun name => name) store.files id = text? dir disk.files id := by
  unfold Cli.openStore text?
  cases hname : fileName id with
  | error e => exact ⟨{}, rfl, by simp [DirectoryStore.textAt, hname, Except.toOption]⟩
  | ok name =>
    dsimp only
    rw [run_ask, run_read, DirectoryStore.textAt_of_ok hname]
    simp only [DirectoryStore.textAt_of_ok hname]
    cases htext : disk.files.get? (Path.join dir name) with
    | none => exact ⟨{}, rfl, rfl⟩
    | some text => exact ⟨{ files := [(name, text)] }, rfl, by simp⟩

end Disk

end Teal
