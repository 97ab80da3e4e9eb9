import MonoTS.Lib.Path
import MonoTS.Stream.Store

/-!
# The files of the stream store

`put` and `update` write a definition to `{name}.pb.tmp` and rename that file to `{name}.pb`. Only
the second path is checked: a definition with the name `../x` is written outside of the store before
it is refused, and its file stays. An update writes under the name that the mutator gives. `remove`
checks the name first. `confined_iff` says which calls keep to the directories of the store.

There are no symbolic links.
-/

open List Path

namespace MonoTS

/-- An operation on a file. -/
inductive FileOp where
  /-- Opened with `create` and `truncate`. -/
  | create (file : Place)
  | rename (source target : Place)
  | remove (file : Place)

def FileOp.touched : FileOp → List Place
  | .create file | .remove file => [file]
  | .rename source target => [source, target]

def FileOp.apply (files : Finset Place) : FileOp → Finset Place
  | .create file => insert file files
  | .rename source target => insert target (files.erase source)
  | .remove file => files.erase file

/-- The directories of the store and of its checkpoints. -/
structure StoreDirs where
  root : Place
  checkpoints : Place

namespace StoreDirs

variable (dirs : StoreDirs) (name : String)

def tmp : Place := resolve dirs.root (name ++ ".pb.tmp")

def stream : Place := resolve dirs.root (name ++ ".pb")

/-- The worker of a stream is `stream::{name}`. -/
def checkpoint : Place := resolve dirs.checkpoints (name ++ ("__stream::" ++ name ++ ".pb"))

def Holds (file : Place) : Prop := dirs.root <+: file ∨ dirs.checkpoints <+: file

end StoreDirs

/-- The check of `resolve_safe_path`. -/
def resolveSafePath (stream worker : String) : Result Unit :=
  match streamPath stream, streamPath worker with
  | .ok (), .ok () => .ok ()
  | _, _ => .error (.storage "Invalid characters in stream or worker ID")

/-- Which file operations of a call succeed. -/
structure PathIo where
  openTmp : Bool
  write : Bool
  rename : Bool
  removeFile : Bool
  removeCheckpoint : Bool

namespace PathIo

variable (io : PathIo) (dirs : StoreDirs) (tmp name : String)

/-- A path with a null character cannot be opened. -/
def opens : Bool := io.openTmp && '\x00' ∉ tmp.toList

/-- `write_versioned_tmp` under the one name and `publish_tmp` under the other. -/
def publishOps : List FileOp :=
  if io.opens tmp then
    .create (dirs.tmp tmp) ::
      if io.write ∧ streamPath name = .ok () ∧ io.rename then
        [.rename (dirs.tmp tmp) (dirs.stream name)]
      else []
  else []

def removeOps : List FileOp :=
  if streamPath name = .ok () ∧ io.removeFile then
    .remove (dirs.stream name) ::
      if resolveSafePath name ("stream::" ++ name) = .ok () ∧ io.removeCheckpoint then
        [.remove (dirs.checkpoint name)]
      else []
  else []

end PathIo

/-- A request of the store. -/
inductive StoreRequest where
  | put (d : StreamDef)
  | update (name : String) (mutator : StreamDef → StreamDef)
  | remove (name : String)

namespace StreamStore

variable (s : StreamStore) (dirs : StoreDirs) (io : PathIo)

/-- The names under which a call writes and publishes a definition, if it gets so far. -/
def published : StoreRequest → Option (String × String)
  | .put d =>
    if d.ensureSingleSourceTable = .ok () ∧ (s.streams.lookup d.name).all Versioned.canRewrite then
      some (d.name, d.name)
    else none
  | .update name mutator =>
    (s.streams.lookup name).bind fun v ↦
      if v.canRewrite ∧ (mutator v.inner).ensureSingleSourceTable = .ok () then
        some ((mutator v.inner).name, name)
      else none
  | .remove _ => none

variable (c : StoreRequest)

/-- What a call does to the files. -/
def fileOps : List FileOp :=
  match s.published c, c with
  | some (tmp, name), _ => io.publishOps dirs tmp name
  | none, .remove name => io.removeOps dirs name
  | none, _ => []

/-- The call comes to the check of a path, and is refused by it. -/
def Rejected : Prop :=
  match s.published c, c with
  | some (tmp, name), _ => io.opens tmp ∧ io.write ∧ streamPath name ≠ .ok ()
  | none, .remove name => streamPath name ≠ .ok () ∨
    io.removeFile ∧ resolveSafePath name ("stream::" ++ name) ≠ .ok ()
  | none, _ => False

/-- However its file operations end, the call touches nothing outside of the directories, and it
leaves the files as they are if it is refused because of its name. -/
structure Confined (c : StoreRequest) : Prop where
  inside : ∀ io, ∀ op ∈ s.fileOps dirs io c, ∀ file ∈ op.touched, dirs.Holds file
  rejected : ∀ io files, s.Rejected io c → (s.fileOps dirs io c).foldl FileOp.apply files = files

/-- The name under which a definition is published passes the check, and the one under which it is
written does not lead out of the directories, if it can be opened at all. -/
def Checked : Prop :=
  ∀ tmp name, s.published c = some (tmp, name) →
    '\x00' ∈ tmp.toList ∨ streamPath name = .ok () ∧ dirs.Holds (dirs.tmp tmp)

/-! ## Checked names -/

variable {s dirs io} {c : StoreRequest} {tmp name : String}

theorem streamPath_eq_ok : streamPath name = .ok () ↔ ¬(name.isEmpty ∨
    name.toList.any (· ∈ ['/', '\\', '\x00']) ∨ ['.', '.'] <:+: name.toList) := by
  rw [streamPath]
  split_ifs with h
  · exact iff_of_false nofun (not_not.mpr h)
  · exact iff_of_true rfl h

section

variable (h : streamPath name = .ok ())

include h

theorem slash_notMem : '/' ∉ name.toList := fun hmem ↦
  streamPath_eq_ok.mp h (.inr (.inl (any_eq_true.mpr ⟨_, hmem, by decide⟩)))

/-- A file with a checked name lies in its directory. -/
theorem resolve_of_check (dir : Place) {rest : String} {c : Char}
    (hslash : '/' ∉ rest.toList) (hc : c ∈ rest.toList) (hne : c ≠ '.') :
    dir <+: resolve dir (name ++ rest) := by
  have hmem : c ∈ (name ++ rest).toList := by
    rw [String.toList_append]
    exact mem_append_right _ hc
  rw [resolve_name dir]
  · exact prefix_append _ _
  · rw [String.toList_append, mem_append]
    exact not_or.mpr ⟨slash_notMem h, hslash⟩
  all_goals
    intro heq
    rw [heq] at hmem
    simp_all

theorem holds_checkpoint : dirs.Holds (dirs.checkpoint name) := by
  have hslash : '/' ∉ ("__stream::" ++ name ++ ".pb").toList := by
    have := slash_notMem h
    simp_all [String.toList_append]
  exact .inr (resolve_of_check h _ (c := 's') hslash (by simp) (by decide))

theorem holds_stream : dirs.Holds (dirs.stream name) :=
  .inl (resolve_of_check h _ (c := 'p') (by decide) (by decide) (by decide))

theorem resolveSafePath_of_check : resolveSafePath name ("stream::" ++ name) = .ok () := by
  have hwork : streamPath ("stream::" ++ name) = .ok () := by
    have hname := streamPath_eq_ok.mp h
    refine streamPath_eq_ok.mpr ?_
    simp_all [String.toList_append, infix_cons_iff]
  rw [resolveSafePath, h, hwork]

end

/-! ## Confined calls -/

/-- A definition that is written inside, or not at all, and published under a checked name. -/
theorem publishOps_confined
    (h : '\x00' ∈ tmp.toList ∨ streamPath name = .ok () ∧ dirs.Holds (dirs.tmp tmp)) :
    (∀ op ∈ io.publishOps dirs tmp name, ∀ file ∈ op.touched, dirs.Holds file) ∧
      (streamPath name ≠ .ok () → io.publishOps dirs tmp name = []) := by
  rw [PathIo.publishOps]
  split
  · next hopens =>
    obtain ⟨hname, htmp⟩ := h.resolve_left (of_decide_eq_true (Bool.and_eq_true_iff.mp hopens).2)
    refine ⟨forall_mem_cons.mpr ⟨forall_mem_singleton.mpr htmp, ?_⟩, absurd hname⟩
    split
    · exact forall_mem_singleton.mpr
        (forall_mem_cons.mpr ⟨htmp, forall_mem_singleton.mpr (holds_stream hname)⟩)
    · nofun
  · exact ⟨nofun, fun _ ↦ rfl⟩

/-- A remove checks the name before it deletes a file, and the second check lets it through. -/
theorem removeOps_confined :
    (∀ op ∈ io.removeOps dirs name, ∀ file ∈ op.touched, dirs.Holds file) ∧
      (streamPath name ≠ .ok () ∨ resolveSafePath name ("stream::" ++ name) ≠ .ok () →
        io.removeOps dirs name = []) := by
  rw [PathIo.removeOps]
  split
  · next h =>
    refine ⟨forall_mem_cons.mpr ⟨forall_mem_singleton.mpr (holds_stream h.1), ?_⟩,
      fun hne ↦ hne.elim (absurd h.1) (absurd (resolveSafePath_of_check h.1))⟩
    split
    · exact forall_mem_singleton.mpr (forall_mem_singleton.mpr (holds_checkpoint h.1))
    · nofun
  · exact ⟨nofun, fun _ ↦ rfl⟩

def goodPathIo : PathIo := ⟨true, true, true, true, true⟩

theorem Confined.checked (h : s.Confined dirs c) : s.Checked dirs c := by
  intro tmp name hpub
  refine or_iff_not_imp_left.mpr fun hnull ↦ ?_
  have hopens : goodPathIo.opens tmp := decide_eq_true hnull
  have hin := h.inside goodPathIo
  have hrej := h.rejected goodPathIo ∅
  simp only [fileOps, Rejected, hpub, PathIo.publishOps, if_pos hopens] at hin hrej
  refine ⟨by_contra fun hne ↦ ?_, hin _ mem_cons_self _ mem_cons_self⟩
  have hfs := hrej ⟨hopens, rfl, hne⟩
  rw [if_neg fun h ↦ hne h.2.1] at hfs
  exact Finset.insert_ne_empty _ _ hfs

/-- **Which calls keep to the directories of the store**: all but those that write a definition
under a name that leads out of them, or publish it under a name that is refused. -/
theorem confined_iff : s.Confined dirs c ↔ s.Checked dirs c := by
  refine ⟨Confined.checked, fun h ↦ ⟨fun io ↦ ?_, fun io files hrej ↦ ?_⟩⟩
  · unfold fileOps
    split
    · next hpub => exact (publishOps_confined (h _ _ hpub)).1
    · exact removeOps_confined.1
    · nofun
  · unfold fileOps
    unfold Rejected at hrej
    split at hrej
    · next hpub => rw [(publishOps_confined (h _ _ hpub)).2 hrej.2.2, foldl_nil]
    · rw [removeOps_confined.2 (hrej.imp_right And.right), foldl_nil]
    · exact hrej.elim

def srvDirs : StoreDirs := ⟨["srv", "streams"], ["srv", "sync_checkpoints"]⟩

def strayPut : StoreRequest := .put { deltaStream "a" with name := "../x" }

theorem rejected_strayPut : empty.Rejected goodPathIo strayPut := ⟨rfl, rfl, by decide +kernel⟩

/-- A definition is refused because of its name, and its file stays beside the root. -/
theorem refused_definition_written : empty.Rejected goodPathIo strayPut ∧
    (empty.fileOps srvDirs goodPathIo strayPut).foldl FileOp.apply ∅ = {["srv", "x.pb.tmp"]} ∧
      ¬empty.Confined srvDirs strayPut := by
  refine ⟨rejected_strayPut, by decide +kernel, fun h ↦ ?_⟩
  exact absurd (h.rejected goodPathIo ∅ rejected_strayPut) (by decide +kernel)

end StreamStore

end MonoTS
