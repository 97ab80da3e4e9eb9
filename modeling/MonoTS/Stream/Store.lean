import MonoTS.DashMap
import MonoTS.Lib.Transition
import MonoTS.Stream.Ddl

/-!
# The store of stream definitions

`StreamStore` keeps every definition in a map and in a file `{name}.pb`. `put` and `update` publish
the file and then change the map. `remove` changes the map and then deletes the file. An update
files the new definition under the name that was asked for, also if the mutator gave it another
one, while `reload` goes by the names that it finds in the files.

What a file gives back need not be what was written: empty endpoints and options come back as none.
This is up to the codec, a parameter here (`StreamCodec`).

So the map is what `reload` makes of the files, except behind an update that gave a stream another
name, behind a definition that does not survive its file and behind a remove that could not delete
the file (`Loaded.step`, `keeps_of_agrees`).
-/

open Option

namespace MonoTS

open Transition

/-! ## The store -/

/-- Schema version written by this binary. -/
def streamSchemaVersion : ℕ := 1

/-- Oldest reader this binary can still load. -/
def streamSchemaMinSupported : ℕ := 1

/-- A value with the versions of its format. -/
structure Versioned (α : Type) where
  inner : α
  diskSchemaVersion : ℕ
  minReaderVersion : ℕ
  deriving DecidableEq

namespace Versioned

variable {α : Type}

def fresh (inner : α) : Versioned α := ⟨inner, streamSchemaVersion, streamSchemaMinSupported⟩

def canRewrite (v : Versioned α) : Bool := v.diskSchemaVersion ≤ streamSchemaVersion

end Versioned

/-- What becomes of a definition that is encoded and decoded again. It keeps its name. -/
structure StreamCodec where
  restored : StreamDef → Result StreamDef
  name_restored : ∀ {d d'}, restored d = .ok d' → d'.name = d.name

/-- What a written file decodes to: the schema version in it is that of the binary. -/
def StreamCodec.stored (codec : StreamCodec) (v : Versioned StreamDef) :
    Result (Versioned StreamDef) :=
  let minReader := max streamSchemaMinSupported v.minReaderVersion
  if streamSchemaVersion < minReader then
    .error (.storage (s!"StreamDef file requires min_reader_version {minReader}, but this " ++
      s!"binary only supports up to {streamSchemaVersion}"))
  else (codec.restored v.inner).map fun d ↦ ⟨d, streamSchemaVersion, minReader⟩

def StreamDef.ensureSingleSourceTable (d : StreamDef) : Result Unit :=
  match d.sourceTables with
  | [_] => .ok ()
  | [] => .error (.query s!"Stream {d.name} requires exactly one source table")
  | _ => .error (.query s!"Stream {d.name} currently only supports binding to a single table")

/-- The check of `stream_path`; the path itself is the name with the extension. -/
def streamPath (name : String) : Result Unit :=
  if name.isEmpty ∨ name.toList.any (· ∈ ['/', '\\', '\x00']) ∨ ['.', '.'] <:+: name.toList then
    .error (.storage s!"Invalid stream name for file path: {name}")
  else .ok ()

/-- How the file operations of a call end. -/
structure StoreIo where
  writeTmp : Result Unit
  rename : Result Unit
  /-- It is no error if there is no such file. -/
  removeFile : Result Unit
  deleteCheckpoint : Result Unit

/-- `write_versioned_tmp` and `publish_tmp`. -/
def StoreIo.publish (io : StoreIo) (name : String) : Result Unit := do
  io.writeTmp
  streamPath name
  io.rename

/-- The deletion in `remove`. -/
def StoreIo.delete (io : StoreIo) (name : String) : Result Unit := do
  streamPath name
  io.removeFile

/-- The definitions in memory and on disk. -/
structure StreamStore where
  streams : DashMap (Versioned StreamDef)
  /-- The `.pb` files by their stems, as what they decode to. -/
  files : DashMap (Result (Versioned StreamDef))

namespace StreamStore

/-- The map that the files give, which are entered in any order; all have to be readable. -/
def reload (files : DashMap (Result (Versioned StreamDef))) :
    Result (DashMap (Versioned StreamDef)) :=
  files.entries.foldr (fun file streams ↦ do
    let v ← file.2
    return (← streams).insert v.inner.name v) (.ok ∅)

variable (codec : StreamCodec)

/-- A new file, and then the entry of the map. -/
def publish (s : StreamStore) (io : StoreIo) (name : String) (v : Versioned StreamDef) :
    Result Unit × StreamStore :=
  match io.publish name with
  | .error e => (.error e, s)
  | .ok () =>
    (.ok (), ⟨s.streams.insert name (.fresh v.inner), s.files.insert name (codec.stored v)⟩)

def put (s : StreamStore) (io : StoreIo) (d : StreamDef) : Result Unit × StreamStore :=
  match d.ensureSingleSourceTable with
  | .error e => (.error e, s)
  | .ok () =>
    match s.streams.lookup d.name with
    | none => s.publish codec io d.name (.fresh d)
    | some existing =>
      if existing.canRewrite then s.publish codec io d.name { existing with inner := d }
      else
        (.error (.storage (s!"refusing to overwrite stream `{d.name}` written with " ++
          s!"schema_version {existing.diskSchemaVersion} (this binary is " ++
          s!"{streamSchemaVersion}); upgrade first")), s)

def update (s : StreamStore) (io : StoreIo) (name : String) (mutator : StreamDef → StreamDef) :
    Result Unit × StreamStore :=
  match s.streams.lookup name with
  | none => (.error (.tableNotFound s!"stream {name}"), s)
  | some v =>
    if v.canRewrite then
      match (mutator v.inner).ensureSingleSourceTable with
      | .error e => (.error e, s)
      | .ok () => s.publish codec io name { v with inner := mutator v.inner }
    else
      (.error (.storage (s!"refusing to update stream `{name}`: on-disk schema_version " ++
        s!"{v.diskSchemaVersion} > {streamSchemaVersion}")), s)

def remove (s : StreamStore) (io : StoreIo) (name : String) : Result Unit × StreamStore :=
  let streams := s.streams.erase name
  match io.delete name with
  | .error e => (.error e, ⟨streams, s.files⟩)
  | .ok () => (io.deleteCheckpoint, ⟨streams, s.files.erase name⟩)

end StreamStore

/-- A call of the store. -/
inductive StoreCall where
  | put (io : StoreIo) (d : StreamDef)
  | update (io : StoreIo) (name : String) (mutator : StreamDef → StreamDef)
  | remove (io : StoreIo) (name : String)

namespace StreamStore

variable (codec : StreamCodec) (s : StreamStore)

def call : StoreCall → Result Unit × StreamStore
  | .put io d => s.put codec io d
  | .update io name mutator => s.update codec io name mutator
  | .remove io name => s.remove io name

/-- A call is possible in every state. -/
def step (c : StoreCall) : Option StreamStore := some (s.call codec c).2

/-- The map is the one that the files give. -/
def Agrees : Prop :=
  ∃ streams, reload s.files = .ok streams ∧ ∀ name, s.streams.lookup name = streams.lookup name

/-- A definition that a call publishes survives its file, and an update that goes through does not
change its name; the file of a stream that is removed can be deleted. -/
def Keeps : StoreCall → Prop
  | .put io d => d.ensureSingleSourceTable = .ok () →
    (s.streams.lookup d.name).all Versioned.canRewrite → io.publish d.name = .ok () →
      codec.restored d = .ok d
  | .update io name mutator => ∀ v, s.streams.lookup name = some v → v.canRewrite →
    (mutator v.inner).ensureSingleSourceTable = .ok () → io.publish name = .ok () →
      (mutator v.inner).name = name ∧ codec.restored (mutator v.inner) = .ok (mutator v.inner)
  | .remove io name => (s.streams.lookup name).isSome → io.delete name = .ok ()

/-! ## What reload gives -/

variable {codec} {s : StreamStore} {files : DashMap (Result (Versioned StreamDef))} {name : String}
  {v : Versioned StreamDef} {io : StoreIo} {c : StoreCall} {streams : DashMap (Versioned StreamDef)}

theorem name_of_lookup_reload (h : reload files = .ok streams)
    (hv : streams.lookup name = some v) : v.inner.name = name := by
  rw [reload] at h
  generalize files.entries = l at h
  induction l generalizing streams with
  | nil =>
    cases h
    cases hv
  | cons file l ih =>
    obtain ⟨w, -, h⟩ := Result.bind_eq_ok.mp h
    obtain ⟨rest, hrest, h⟩ := Result.bind_eq_ok.mp h
    cases h
    by_cases hn : name = w.inner.name
    · rw [hn, AList.lookup_insert] at hv
      rw [← some.inj hv, hn]
    · rw [AList.lookup_insert_ne hn] at hv
      exact ih hv hrest

theorem lookup_reload (hnamed : ∀ file ∈ files.entries, ∀ v, file.2 = .ok v → v.inner.name = file.1)
    (h : reload files = .ok streams) (name : String) :
    files.lookup name = (streams.lookup name).map .ok := by
  have hlook : files.lookup name = files.entries.dlookup name := rfl
  rw [reload] at h
  rw [hlook]
  generalize files.entries = l at h hnamed
  induction l generalizing streams with
  | nil =>
    cases h
    rfl
  | cons file l ih =>
    obtain ⟨hfile, hl⟩ := List.forall_mem_cons.mp hnamed
    obtain ⟨w, hw, h⟩ := Result.bind_eq_ok.mp h
    obtain ⟨rest, hrest, h⟩ := Result.bind_eq_ok.mp h
    cases h
    rw [hfile w hw]
    by_cases hn : name = file.1
    · subst hn
      rw [AList.lookup_insert, List.dlookup_cons_eq, hw, map_some]
    · rw [AList.lookup_insert_ne hn, List.dlookup_cons_ne l file hn, ih hrest hl]

theorem exists_reload (h : ∀ file ∈ files.entries, ∃ v, file.2 = .ok v) :
    ∃ streams, reload files = .ok streams := by
  rw [reload]
  generalize files.entries = l at h
  induction l with
  | nil => exact ⟨_, rfl⟩
  | cons file l ih =>
    obtain ⟨⟨_, hv⟩, hl⟩ := List.forall_mem_cons.mp h
    obtain ⟨_, hrest⟩ := ih hl
    rw [List.foldr_cons, hv, hrest]
    exact ⟨_, rfl⟩

/-! ## The calls -/

/-- The map has what the files have, and every stream stands under its name and was written for
readers like this one. -/
structure Loaded (s : StreamStore) : Prop where
  lookup_eq : ∀ name, s.files.lookup name = (s.streams.lookup name).map .ok
  stream : ∀ name v, s.streams.lookup name = some v →
    v.inner.name = name ∧ v.minReaderVersion ≤ streamSchemaMinSupported

theorem Loaded.file (h : s.Loaded) {file : Sigma fun _ : String ↦ Result (Versioned StreamDef)}
    (hfile : file ∈ s.files.entries) : ∃ v, file.2 = .ok v ∧ v.inner.name = file.1 := by
  have hlook := AList.mem_lookup_iff.mpr hfile
  rw [h.lookup_eq] at hlook
  obtain ⟨v, hv, heq⟩ := map_eq_some_iff.mp hlook
  exact ⟨v, heq.symm, (h.stream _ v hv).1⟩

theorem Loaded.agrees (h : s.Loaded) : s.Agrees := by
  obtain ⟨streams, hrel⟩ := exists_reload fun file hfile ↦ (h.file hfile).imp fun _ ↦ And.left
  refine ⟨streams, hrel, fun name ↦ ?_⟩
  refine map_injective (fun _ _ heq ↦ Except.ok.inj heq) ((h.lookup_eq name).symm.trans ?_)
  refine lookup_reload (fun file hfile v hv ↦ ?_) hrel name
  obtain ⟨w, hw, hname⟩ := h.file hfile
  cases hw.symm.trans hv
  exact hname

theorem stored_eq (h : v.minReaderVersion ≤ streamSchemaMinSupported) :
    codec.stored v = (codec.restored v.inner).map .fresh := by
  rw [StreamCodec.stored, max_eq_left h]
  rfl

section

variable (h : s.Loaded)

include h

theorem Loaded.publish (hread : v.minReaderVersion ≤ streamSchemaMinSupported)
    (hok : io.publish name = .ok () →
      v.inner.name = name ∧ codec.restored v.inner = .ok v.inner) :
    (s.publish codec io name v).2.Loaded := by
  rw [StreamStore.publish, stored_eq hread]
  split
  · exact h
  next hio =>
  obtain ⟨hname, hrest⟩ := hok hio
  rw [hrest]
  refine ⟨fun n ↦ ?_, fun n w hw ↦ ?_⟩ <;> by_cases hn : n = name
  · rw [hn, AList.lookup_insert, AList.lookup_insert]
    rfl
  · rw [AList.lookup_insert_ne hn, AList.lookup_insert_ne hn, h.lookup_eq]
  · rw [hn, AList.lookup_insert] at hw
    rw [← some.inj hw, hn]
    exact ⟨hname, le_rfl⟩
  · rw [AList.lookup_insert_ne hn] at hw
    exact h.stream n w hw

/-- A definition that is published and found again under its name has survived its file. -/
theorem Loaded.survives (hagr : (s.publish codec io name v).2.Agrees)
    (hio : io.publish name = .ok ()) (hread : v.minReaderVersion ≤ streamSchemaMinSupported) :
    v.inner.name = name ∧ codec.restored v.inner = .ok v.inner := by
  obtain ⟨streams, hrel, hlook⟩ := hagr
  simp only [StreamStore.publish, hio] at hrel hlook
  have hself := hlook name
  rw [AList.lookup_insert] at hself
  have hname := name_of_lookup_reload hrel hself.symm
  refine ⟨hname, ?_⟩
  have hfile := lookup_reload (fun file hfile w hw ↦ ?_) hrel name
  · rw [AList.lookup_insert, ← hself, map_some, stored_eq hread, Option.some_inj] at hfile
    cases hrest : codec.restored v.inner with
    | error => rw [hrest] at hfile; cases hfile
    | ok d =>
      rw [hrest] at hfile
      exact congrArg _ (congrArg Versioned.inner (Except.ok.inj hfile))
  · -- the new file has the name of the definition, and the others are as before
    have hmem := AList.mem_lookup_iff.mpr hfile
    by_cases hn : file.1 = name
    · rw [hn, AList.lookup_insert, stored_eq hread] at hmem
      rw [← some.inj hmem] at hw
      cases hrest : codec.restored v.inner with
      | error => rw [hrest] at hw; cases hw
      | ok d =>
        rw [hrest] at hw
        cases hw
        rw [hn, ← hname]
        exact codec.name_restored hrest
    · rw [AList.lookup_insert_ne hn] at hmem
      obtain ⟨_, hw', hfst⟩ := h.file (AList.mem_lookup_iff.mp hmem)
      cases hw'.symm.trans hw
      exact hfst

theorem Loaded.step (hok : s.Keeps codec c) : (s.call codec c).2.Loaded := by
  cases c with
  | put io d =>
    rw [call, put]
    split
    · exact h
    next hsgl =>
    split
    · next hnone => exact h.publish le_rfl fun hio ↦ ⟨rfl, hok hsgl (hnone ▸ rfl) hio⟩
    · next existing hex =>
      split_ifs with hrw
      · exact h.publish (h.stream _ _ hex).2 fun hio ↦ ⟨rfl, hok hsgl (hex ▸ hrw) hio⟩
      · exact h
  | update io name =>
    rw [call, update]
    split
    · exact h
    · next v hv =>
      split_ifs with hrw
      · split
        · exact h
        · next hsgl => exact h.publish (h.stream _ _ hv).2 (hok v hv hrw hsgl)
      · exact h
  | remove io name =>
    rw [call, remove]
    have herase : ∀ n w, (s.streams.erase name).lookup n = some w →
        w.inner.name = n ∧ w.minReaderVersion ≤ streamSchemaMinSupported := by
      intro n w hw
      by_cases hn : n = name
      · rw [hn, AList.lookup_erase] at hw
        cases hw
      · rw [AList.lookup_erase_ne hn] at hw
        exact h.stream n w hw
    cases hio : io.delete name with
    | error =>
      refine ⟨fun n ↦ ?_, herase⟩
      by_cases hn : n = name
      · -- the stream was not there, or it could have been deleted
        have hnone : s.streams.lookup name = none := by
          rw [← Option.not_isSome_iff_eq_none]
          intro hsome
          cases hio.symm.trans (hok hsome)
        rw [hn, AList.lookup_erase, h.lookup_eq, hnone]
      · rw [AList.lookup_erase_ne hn, h.lookup_eq]
    | ok =>
      refine ⟨fun n ↦ ?_, herase⟩
      by_cases hn : n = name
      · rw [hn, AList.lookup_erase, AList.lookup_erase]
        rfl
      · rw [AList.lookup_erase_ne hn, AList.lookup_erase_ne hn, h.lookup_eq]

theorem keeps_of_agrees (hagr : (s.call codec c).2.Agrees) : s.Keeps codec c := by
  cases c with
  | put io d =>
    intro hsgl hall hio
    simp only [call, put, hsgl] at hagr
    split at hagr
    · exact (h.survives hagr hio le_rfl).2
    · next existing hex =>
      rw [hex, all_some] at hall
      rw [if_pos hall] at hagr
      exact (h.survives hagr hio (h.stream _ _ hex).2).2
  | update io name mutator =>
    intro v hv hrw hsgl hio
    simp only [call, update, hv, hrw, if_true, hsgl] at hagr
    exact h.survives hagr hio (h.stream _ _ hv).2
  | remove io name =>
    intro hsome
    cases hio : io.delete name with
    | ok => rfl
    | error =>
      obtain ⟨streams, hrel, hlook⟩ := h.agrees
      obtain ⟨streams', hrel', hlook'⟩ := hagr
      simp only [call, remove, hio] at hrel' hlook'
      cases hrel.symm.trans hrel'
      have hnone := hlook' name
      rw [AList.lookup_erase, ← hlook name] at hnone
      rw [← hnone] at hsome
      cases hsome

end

/-- **The map is what a reload gives, behind every call**, exactly in the runs in which no update
renames a stream, every definition survives its file and no file of a removed stream stays. -/
theorem memory_agrees_iff (h : s.Loaded) (calls : List StoreCall) :
    Always (step codec) Agrees s calls ↔ Along (step codec) (Keeps codec) s calls := by
  refine always_iff_along (fun _ ↦ Loaded.agrees) (fun s c s' hs hstep hok ↦ ?_)
    (fun s c s' hs hstep hagr ↦ ?_) calls h
  · exact some.inj hstep ▸ hs.step hok
  · exact keeps_of_agrees hs (some.inj hstep ▸ hagr)

def empty : StreamStore := ⟨∅, ∅⟩

theorem loaded_empty : empty.Loaded := ⟨fun _ ↦ rfl, fun _ _ h ↦ by cases h⟩

def goodIo : StoreIo := ⟨.ok (), .ok (), .ok (), .ok ()⟩

def denied : TsdbError := .storage "Permission denied"

/-- The endpoint of a Delta sink comes back as none if it is empty. -/
def deltaCodec : StreamCodec where
  restored d := .ok (match d.sinkConfig with
    | .delta path endpoint options =>
      { d with sinkConfig := .delta path (endpoint.filter (· ≠ "")) options }
    | _ => d)
  name_restored h := by
    cases h
    split <;> rfl

/-- The endpoint is set, to nothing. -/
def emptyEndpoint : StreamDef :=
  { deltaStream "a" with
    sinkConfig := .delta "s3://b" (some "") ⟨none, none, "us-east-1", none, 500, 200000, 20⟩ }

/-- The second call cannot rename its file. -/
theorem failed_put_agrees :
    Always (step deltaCodec) Agrees empty [.put goodIo (deltaStream "a"),
      .put { goodIo with rename := .error denied } (deltaStream "b")] :=
  (memory_agrees_iff loaded_empty _).mpr fun _ _ ↦
    ⟨fun _ _ _ ↦ rfl, fun _ _ ↦ ⟨fun _ _ _ ↦ rfl, trivial⟩⟩

/-- A stream whose file cannot be deleted, one that an update renames, and one with an empty
endpoint. -/
theorem removed_stream_on_disk :
    let s := (empty.put deltaCodec goodIo (deltaStream "a")).2
    ¬Agrees (s.remove { goodIo with removeFile := .error denied } "s").2 ∧
    ¬Agrees (s.update deltaCodec goodIo "s" fun d ↦ { d with name := "t" }).2 ∧
    ¬Agrees (empty.put deltaCodec goodIo emptyEndpoint).2 := by
  refine ⟨?_, ?_, ?_⟩ <;>
  · rintro ⟨_, hrel, hlook⟩
    cases hrel
    exact absurd (hlook "s") (by decide +kernel)

end StreamStore

end MonoTS
