import MonoTS.Lib.Transition
import MonoTS.Stream.CaptureBuffer
import MonoTS.Wal.Load

/-!
# Loading deferred inserts

The stream keeps captured inserts without their rows and merges neighbouring ones, so that an event
stands for a range of LSNs. Before the sink writes it, `materialize_log_event_with_cache` loads the
batches: from the `WalLoadCache`, which has them under the table and the exact range, or else from
the WAL files, in which case they are put into the cache. The only test is that at least one batch
was found.

A write is captured when the WAL writer has accepted it. Its frame is then in the micro-batch of the
writer and reaches the file later, or never if the writer fails. And a file may be gone when it is
read. So a range can be in the files in part. What is there then passes as the whole, and stays in
the cache when the files have become complete (`partial_range_cached`).

The batches are exactly those of the range if it is in the cache already, or if its frames are all
in the files, or none of them (`materialize_exact_iff`). The cache counts its bytes and evicts what
was used least recently (`load_cache_accounts`).
-/

open List Option

namespace MonoTS

open LittleEndian Transition LoggedFile

variable {Schema Batch : Type*}

/-! ## The cache -/

/-- A table and the exact range that was asked for. -/
structure WalLoadKey where
  table : String
  baseLsn : ℕ
  maxLsn : ℕ
  deriving DecidableEq, Repr

def WalLoadKey.new (table : String) (range : LsnRange) : WalLoadKey :=
  ⟨table, range.baseLsn, range.maxLsn⟩

/-- The batches of a range. -/
structure CachedBatches (Batch : Type*) where
  key : WalLoadKey
  batches : List Batch
  bytes : ℕ

/-- A cache of loaded ranges. -/
structure WalLoadCache (Batch : Type*) where
  limitBytes : ℕ
  usedBytes : ℕ
  /-- The least recently used comes last. -/
  entries : List (CachedBatches Batch)

namespace WalLoadCache

def new (limitBytes : ℕ) : WalLoadCache Batch := ⟨max limitBytes 1, 0, []⟩

/-- A hit makes the entry the most recently used. -/
def getBatches (cache : WalLoadCache Batch) (key : WalLoadKey) :
    Option (List Batch) × WalLoadCache Batch :=
  match cache.entries.find? fun e ↦ e.key = key with
  | none => (none, cache)
  | some e =>
    (some e.batches, { cache with entries := e :: cache.entries.filter fun e ↦ e.key ≠ key })

/-- `pop_lru` until the bytes are within the limit; the least recently used comes first here. -/
def evict (limitBytes : ℕ) : ℕ → List (CachedBatches Batch) → ℕ × List (CachedBatches Batch)
  | usedBytes, [] => (usedBytes, [])
  | usedBytes, e :: entries =>
    if limitBytes < usedBytes then evict limitBytes (usedBytes - e.bytes) entries
    else (usedBytes, e :: entries)

def putBatches (arrayMemorySize : Batch → ℕ) (cache : WalLoadCache Batch) (key : WalLoadKey)
    (batches : List Batch) : WalLoadCache Batch :=
  let bytes := (batches.map fun b ↦ saturatingAdd (arrayMemorySize b) 64).sum % 2 ^ 64
  if bytes = 0 then cache
  else
    let old := ((cache.entries.find? fun e ↦ e.key = key).map CachedBatches.bytes).getD 0
    let entries := ⟨key, batches, bytes⟩ :: cache.entries.filter fun e ↦ e.key ≠ key
    let r := evict cache.limitBytes (saturatingAdd (cache.usedBytes - old) bytes) entries.reverse
    ⟨cache.limitBytes, r.1, r.2.reverse⟩

variable {cache : WalLoadCache Batch} {key : WalLoadKey}

theorem getBatches_eq_some {batches : List Batch} (h : (cache.getBatches key).1 = some batches) :
    ∃ e ∈ cache.entries, e.key = key ∧ e.batches = batches := by
  rw [getBatches] at h
  split at h
  · cases h
  · next e he =>
    have hkey := find?_some he
    rw [decide_eq_true_eq] at hkey
    exact ⟨e, mem_of_find?_eq_some he, hkey, some.inj h⟩

theorem getBatches_eq_none (h : (cache.getBatches key).1 = none) :
    ∀ e ∈ cache.entries, e.key ≠ key := by
  rw [getBatches] at h
  split at h
  · next hnone =>
    intro e he hkey
    exact find?_eq_none.mp hnone e he (decide_eq_true hkey)
  · cases h

variable {e : CachedBatches Batch}

theorem mem_getBatches (he : e ∈ (cache.getBatches key).2.entries) : e ∈ cache.entries := by
  rw [getBatches] at he
  split at he
  · exact he
  · next found hfd =>
    rcases mem_cons.mp he with rfl | he
    · exact mem_of_find?_eq_some hfd
    · exact mem_of_mem_filter he

/-- The bytes of the entries. -/
def totalBytes (entries : List (CachedBatches Batch)) : ℕ := (entries.map CachedBatches.bytes).sum

/-- The loop leaves what was used last. A right counter stays right and comes to the limit. -/
theorem evict_spec (limitBytes usedBytes : ℕ) (entries : List (CachedBatches Batch)) :
    let r := evict limitBytes usedBytes entries
    r.2 <:+ entries ∧
      (usedBytes = totalBytes entries → r.1 = totalBytes r.2 ∧ r.1 ≤ limitBytes) := by
  induction entries generalizing usedBytes with
  | nil => exact ⟨suffix_rfl, fun h ↦ ⟨h, h ▸ Nat.zero_le _⟩⟩
  | cons e entries ih =>
    rw [evict]
    split
    · obtain ⟨hsuf, hcount⟩ := ih (usedBytes - e.bytes)
      exact ⟨hsuf.trans (suffix_cons e entries), fun h ↦
        hcount (h ▸ Nat.add_sub_cancel_left ..)⟩
    · next hle => exact ⟨suffix_rfl, fun h ↦ ⟨h, not_lt.mp hle⟩⟩

variable {entries : List (CachedBatches Batch)} {arrayMemorySize : Batch → ℕ} {batches : List Batch}

theorem mem_putBatches (he : e ∈ (cache.putBatches arrayMemorySize key batches).entries) :
    e.key = key ∧ e.batches = batches ∨ e ∈ cache.entries := by
  rw [putBatches] at he
  dsimp only at he
  split at he
  · exact .inr he
  · have he := mem_reverse.mp ((evict_spec _ _ _).1.subset (mem_reverse.mp he))
    rcases mem_cons.mp he with rfl | he
    · exact .inl ⟨rfl, rfl⟩
    · exact .inr (mem_of_mem_filter he)

/-! ### The bytes of the cache -/

theorem perm_find?_filter (h : (entries.map CachedBatches.key).Nodup) (key : WalLoadKey) :
    entries.Perm ((entries.find? fun e ↦ e.key = key).toList ++
      entries.filter fun e ↦ e.key ≠ key) := by
  induction entries with
  | nil => rfl
  | cons x entries ih =>
    obtain ⟨hx, h⟩ := nodup_cons.mp h
    by_cases hkey : x.key = key
    · subst hkey
      have hall : ∀ y ∈ entries, decide (y.key ≠ x.key) = true := fun y hy ↦
        decide_eq_true fun heq ↦ hx (heq ▸ mem_map_of_mem hy)
      rw [find?_cons_of_pos (by simp), filter_cons_of_neg (by simp), filter_eq_self.mpr hall]
      rfl
    · rw [find?_cons_of_neg (by simpa using hkey), filter_cons_of_pos (by simpa using hkey)]
      exact ((ih h).cons x).trans perm_middle.symm

/-- A call of the cache. -/
inductive Call (Batch : Type*) where
  | getBatches (key : WalLoadKey)
  | putBatches (key : WalLoadKey) (batches : List Batch)

/-- A cache with the batches of the latest put of every key. -/
structure History (Batch : Type*) where
  cache : WalLoadCache Batch
  latest : WalLoadKey → Option (List Batch)

variable {s : History Batch} {limitBytes : ℕ}

section

variable (arrayMemorySize : Batch → ℕ)

def History.call (s : History Batch) : Call Batch → History Batch
  | .getBatches key => { s with cache := (s.cache.getBatches key).2 }
  | .putBatches key batches =>
    ⟨s.cache.putBatches arrayMemorySize key batches,
      if batches.isEmpty then s.latest else Function.update s.latest key (some batches)⟩

/-- The bytes of a put can be added to those of a full cache. -/
def Call.Fits (limitBytes : ℕ) : Call Batch → Prop
  | .getBatches _ => True
  | .putBatches _ batches =>
    limitBytes + (batches.map fun b ↦ saturatingAdd (arrayMemorySize b) 64).sum < 2 ^ 64

end

/-- What every call keeps. -/
structure History.Inv (s : History Batch) (limitBytes : ℕ) : Prop where
  limit_eq : s.cache.limitBytes = limitBytes
  used_eq : s.cache.usedBytes = totalBytes s.cache.entries
  used_le : s.cache.usedBytes ≤ limitBytes
  nodup : (s.cache.entries.map CachedBatches.key).Nodup
  latest : ∀ e ∈ s.cache.entries, s.latest e.key = some e.batches

section

variable (h : s.Inv limitBytes)

include h

theorem History.Inv.getBatches (key : WalLoadKey) :
    (s.call arrayMemorySize (.getBatches key)).Inv limitBytes := by
  dsimp only [call, WalLoadCache.getBatches]
  have hperm := perm_find?_filter h.nodup key
  split
  · exact h
  · next he =>
    rw [he] at hperm
    exact ⟨h.limit_eq, h.used_eq.trans (hperm.map _).sum_nat, h.used_le,
      (hperm.map _).nodup_iff.mp h.nodup, fun e he ↦ h.latest e (hperm.mem_iff.mpr he)⟩

/-- A put leaves what was used last, its own batches first, and counts the bytes of that. -/
theorem History.Inv.putBatches_spec (hne : batches ≠ [])
    (hfits : Call.Fits arrayMemorySize limitBytes (.putBatches key batches)) :
    let c := s.cache.putBatches arrayMemorySize key batches
    (c.limitBytes = limitBytes ∧ c.usedBytes = totalBytes c.entries ∧ c.usedBytes ≤ limitBytes) ∧
      ∃ e : CachedBatches Batch, e.key = key ∧ e.batches = batches ∧
        c.entries <+: e :: s.cache.entries.filter fun e ↦ e.key ≠ key := by
  have hpos : (batches.map fun b ↦ saturatingAdd (arrayMemorySize b) 64).sum ≠ 0 := by
    obtain ⟨b, rest, rfl⟩ := exists_cons_of_ne_nil hne
    rw [map_cons, sum_cons, saturatingAdd]
    omega
  rw [Call.Fits] at hfits
  rw [putBatches, Nat.mod_eq_of_lt (by omega), if_neg hpos]
  generalize (batches.map fun b ↦ saturatingAdd (arrayMemorySize b) 64).sum = bytes at hfits
  have hused : s.cache.usedBytes =
      ((s.cache.entries.find? fun e ↦ e.key = key).map CachedBatches.bytes).getD 0 +
        totalBytes (s.cache.entries.filter fun e ↦ e.key ≠ key) := by
    rw [h.used_eq, totalBytes, ((perm_find?_filter h.nodup _).map _).sum_nat, map_append,
      sum_append]
    cases s.cache.entries.find? fun e ↦ e.key = key <;> rfl
  have hle := h.used_le
  obtain ⟨hsuf, hcount⟩ := evict_spec s.cache.limitBytes
    (saturatingAdd (s.cache.usedBytes -
      ((s.cache.entries.find? fun e ↦ e.key = key).map CachedBatches.bytes).getD 0) bytes)
    (⟨key, batches, bytes⟩ :: s.cache.entries.filter fun e ↦ e.key ≠ key).reverse
  obtain ⟨heq, hlim⟩ := hcount (by
    rw [saturatingAdd_of_lt (by omega), hused, Nat.add_sub_cancel_left, totalBytes, totalBytes,
      ((reverse_perm _).map _).sum_nat]
    exact Nat.add_comm _ _)
  refine ⟨⟨h.limit_eq, heq.trans ((reverse_perm _).map _).sum_nat.symm,
    hlim.trans h.limit_eq.le⟩, ⟨key, batches, bytes⟩, rfl, rfl, ?_⟩
  rw [← reverse_suffix, reverse_reverse]
  exact hsuf

theorem History.Inv.call {c : Call Batch}
    (hfits : c.Fits arrayMemorySize limitBytes) : (s.call arrayMemorySize c).Inv limitBytes := by
  cases c with
  | getBatches key => exact h.getBatches key
  | putBatches key batches =>
    by_cases hne : batches = []
    · subst hne
      exact h
    · obtain ⟨⟨hlim, hused, hle⟩, e, rfl, rfl, hpre⟩ := h.putBatches_spec hne hfits
      have hnew : ∀ x ∈ s.cache.entries.filter fun x ↦ x.key ≠ e.key, x.key ≠ e.key :=
        fun x hx ↦ of_decide_eq_true (mem_filter.mp hx).2
      have hnd : ((e :: s.cache.entries.filter fun x ↦ x.key ≠ e.key).map
          CachedBatches.key).Nodup :=
        nodup_cons.mpr ⟨by simp, h.nodup.sublist (filter_sublist.map _)⟩
      refine ⟨hlim, hused, hle, hnd.sublist (hpre.map _).sublist, fun x hx ↦ ?_⟩
      dsimp only [History.call]
      rw [if_neg (by simpa using hne)]
      rcases mem_cons.mp (hpre.subset hx) with rfl | hx
      · exact Function.update_self ..
      · rw [Function.update_of_ne (hnew x hx)]
        exact h.latest x (mem_of_mem_filter hx)

end

/-- **The cache counts its bytes**, as long as those of a put can be added to those of a full cache:
the counter is the bytes of the entries and within the limit, a hit has the latest batches, and a
put evicts the least recently used. -/
theorem load_cache_accounts {limit : ℕ} {cs : List (Call Batch)}
    (hfits : ∀ c ∈ cs, c.Fits arrayMemorySize (max limit 1)) :
    let s := cs.foldl (History.call arrayMemorySize) ⟨.new limit, fun _ ↦ none⟩
    s.cache.usedBytes = (s.cache.entries.map CachedBatches.bytes).sum ∧
    s.cache.usedBytes ≤ s.cache.limitBytes ∧
    (∀ key batches, (s.cache.getBatches key).1 = some batches → s.latest key = some batches) ∧
    ∀ key batches, batches ≠ [] →
      Call.Fits arrayMemorySize (max limit 1) (.putBatches key batches) →
      ∃ e : CachedBatches Batch, e.key = key ∧ e.batches = batches ∧
        (s.cache.putBatches arrayMemorySize key batches).entries
          <+: e :: s.cache.entries.filter fun e ↦ e.key ≠ key := by
  intro s
  have hnew : (⟨.new limit, fun _ ↦ none⟩ : History Batch).Inv (max limit 1) :=
    ⟨rfl, rfl, Nat.zero_le _, nodup_nil, nofun⟩
  have hinv : s.Inv (max limit 1) :=
    foldlRecOn (motive := (History.Inv · _)) cs _ hnew fun s hs c hc ↦ hs.call (hfits c hc)
  refine ⟨hinv.used_eq, hinv.limit_eq ▸ hinv.used_le, fun key batches hhit ↦ ?_,
    fun key batches hne hput ↦ (hinv.putBatches_spec hne hput).2⟩
  obtain ⟨e, he, rfl, rfl⟩ := getBatches_eq_some hhit
  exact hinv.latest e he

/-- A cache with one entry. -/
theorem one_put_accounted :
    let s := [Call.putBatches ⟨"cpu", 1, 1⟩ [()]].foldl (History.call fun _ ↦ 36)
      ⟨.new 200, fun _ ↦ none⟩
    s.cache.usedBytes = 100 ∧
      s.cache.usedBytes = (s.cache.entries.map CachedBatches.bytes).sum :=
  ⟨by decide +kernel, (load_cache_accounts (by simp [Call.Fits, saturatingAdd])).1⟩

/-- Two entries that together have more bytes than the counter can show. -/
theorem counter_saturates :
    let s := [Call.putBatches ⟨"cpu", 1, 1⟩ [()], .putBatches ⟨"cpu", 2, 2⟩ [()]].foldl
      (History.call fun _ ↦ 2 ^ 63 - 64) ⟨.new (2 ^ 64 - 1), fun _ ↦ none⟩
    s.cache.usedBytes = 2 ^ 64 - 1 ∧ (s.cache.entries.map CachedBatches.bytes).sum = 2 ^ 64 := by
  decide +kernel

end WalLoadCache

open WalLoadCache

/-! ## The loader -/

/-- An insert with its LSNs and, if they are in memory, its batches. -/
structure LogEvent (Batch : Type*) where
  lsn : LsnRange
  batches : Option (List Batch)

namespace LogEvent

def fromLsnRange (baseLsn maxLsn : ℕ) : LogEvent Batch := ⟨.new baseLsn maxLsn, none⟩

variable (event : LogEvent Batch)

def hasBatches : Bool := event.batches.any fun b ↦ !b.isEmpty

def setBatches (batches : List Batch) : LogEvent Batch :=
  { event with batches := some batches }

end LogEvent

variable (crc32 : Bytes → UInt32) (ipc : ArrowIpc Schema Batch) (table : String)

variable (files : List WalFile)

/-- The event with its batches, and the cache afterwards. -/
def materializeLogEventWithCache (cache : Option (WalLoadCache Batch)) (event : LogEvent Batch) :
    Result (LogEvent Batch) × Option (WalLoadCache Batch) :=
  if event.hasBatches then (.ok event, cache)
  else
    let key := WalLoadKey.new table event.lsn
    match cache.map fun c ↦ c.getBatches key with
    | some (some batches, cache) => (.ok (event.setBatches batches), some cache)
    | _ =>
      match WalFile.readWalBatchesForLsnRange crc32 ipc files event.lsn with
      | .error e => (.error e, cache)
      | .ok batches =>
        if batches.isEmpty then
          (.error (.storage
            s!"no WAL frames for LSN range [{event.lsn.baseLsn}, {event.lsn.maxLsn}]"), cache)
        else (.ok (event.setBatches batches),
          cache.map fun c ↦ c.putBatches ipc.arrayMemorySize key batches)

/-- `StreamArrowLoader::load_wal_insert`. -/
def loadWalInsert (cache : WalLoadCache Batch)
    (lsn : LsnRange) : Result (List Batch) × WalLoadCache Batch :=
  match materializeLogEventWithCache crc32 ipc table files (some cache)
    (.fromLsnRange lsn.baseLsn lsn.maxLsn) with
  | (.error e, c) =>
    (.error (.storage
      s!"WAL load failed for Insert LSN [{lsn.baseLsn}, {lsn.maxLsn}]: {e.display}"), c.getD cache)
  | (.ok filled, c) => (.ok (filled.batches.getD []), c.getD cache)

/-! ## The WAL of a table -/

/-- The WAL files and the writer of a table, with the load cache of the engine. -/
structure WalTable (Schema Batch : Type*) where
  table : String
  files : List (LoggedFile Schema Batch)
  /-- The frames of the channel and of the micro-batch. -/
  pending : List (UInt64 × Batch)
  /-- Every write that the writer has accepted. Captured inserts are among them. -/
  accepted : List (Write Batch)
  cache : WalLoadCache Batch

/-- A step of the WAL or a load. -/
inductive WalTableAction (Schema Batch : Type*) where
  /-- `WalWorker::append`, of a write that gets the next LSN of the table. -/
  | append (lsn : UInt64) (batch : Batch)
  /-- `flush_micro_batch` writes the first pending frame. -/
  | write
  /-- Writing fails, and what is pending is gone with the drained micro-batch. -/
  | fault
  | startSegment (path : String) (memtableId now : ℕ) (schema : Schema)
  | finishSegment (footer : UInt64 × SegmentFooter)
  | memtableEnd (endLsn closedMemtableId newMemtableId : UInt64)
  /-- A file other than the active one is reclaimed. -/
  | unlink (fileId : ℕ)
  /-- The sink loads a captured insert. -/
  | load (range : LsnRange)
  /-- A load for another table, that finds these batches if it misses the cache. -/
  | otherLoad (key : WalLoadKey) (batches : List Batch)

namespace WalTable

def initial (limitBytes : ℕ) : WalTable Schema Batch :=
  ⟨table, [], [], [], .new limitBytes⟩

variable (s : WalTable Schema Batch)

/-- The last file and those before it, if frames can be appended to it. -/
def active : Option (List (LoggedFile Schema Batch) × LoggedFile Schema Batch) :=
  s.files.getLast?.bind fun f ↦ if f.footer.isNone then some (s.files.dropLast, f) else none

/-- The entry that a call adds to the active file. -/
def nextEntry (op : AppendOp Batch) : Option (LogEntry Schema Batch) :=
  s.active.map fun x ↦ op.entry (nextSequence 1 x.2.log)

variable (blockMaxBytes : ℕ)

/-- The entry is written behind the log of the active file, unless its block is too large. -/
def appendEntry (s : WalTable Schema Batch) (op : AppendOp Batch) :
    Option (WalTable Schema Batch) :=
  s.active.bind fun x ↦
    let e := op.entry (nextSequence 1 x.2.log)
    if (e.frame ipc).blockLen ≤ blockMaxBytes then
      some { s with files := x.1 ++ [{ x.2 with log := x.2.log ++ [e] }] }
    else none

variable (range : LsnRange)

/-- Every LSN of the range is that of a write. -/
def Captured : Prop :=
  ∀ lsn ∈ List.range' range.baseLsn (range.maxLsn + 1 - range.baseLsn),
    lsn ∈ s.accepted.map Prod.fst

instance : Decidable (s.Captured range) :=
  inferInstanceAs (Decidable (∀ lsn ∈ _, _))

def materialize : Result (LogEvent Batch) × Option (WalLoadCache Batch) :=
  materializeLogEventWithCache crc32 ipc s.table (s.files.map (file crc32 ipc))
    (some s.cache) (.fromLsnRange range.baseLsn range.maxLsn)

def step (s : WalTable Schema Batch) : WalTableAction Schema Batch → Option (WalTable Schema Batch)
  | .append lsn batch =>
    if ∀ w ∈ s.accepted, w.1 < lsn.toNat then
      some { s with
        pending := s.pending ++ [(lsn, batch)]
        accepted := s.accepted ++ [(lsn.toNat, batch)] }
    else none
  | .write =>
    match s.pending with
    | [] => none
    | (lsn, batch) :: pending =>
      { s with pending }.appendEntry ipc blockMaxBytes (.batch batch lsn)
  | .fault => some { s with pending := [] }
  | .startSegment path memtableId now schema =>
    if s.active.isNone then
      let fileId := (s.files.getLast?.map fileId).getD 0 + 1
      some { s with
        files := s.files ++ [⟨fileId, path, memtableId, now, [.schema schema], none⟩] }
    else none
  | .finishSegment footer =>
    s.active.map fun x ↦ { s with files := x.1 ++ [{ x.2 with footer := some footer }] }
  | .memtableEnd endLsn closed new =>
    if s.pending.isEmpty then
      s.appendEntry ipc blockMaxBytes (.memtableEnd endLsn closed new)
    else none
  | .unlink fileId =>
    if ∀ f ∈ s.files.getLast?, f.fileId ≠ fileId then
      some { s with files := s.files.filter fun f ↦ f.fileId ≠ fileId }
    else none
  | .load range =>
    if s.Captured range then
      some { s with cache := (loadWalInsert crc32 ipc s.table
        (s.files.map (file crc32 ipc)) s.cache range).2 }
    else none
  | .otherLoad key batches =>
    if key.table ≠ s.table then
      match s.cache.getBatches key with
      | (some _, cache) => some { s with cache }
      | (none, cache) =>
        some { s with cache := cache.putBatches ipc.arrayMemorySize key batches }
    else none

/-- The call returns an event with batches that satisfy the predicate, if it returns one. -/
def Returns (r : Result (LogEvent Batch)) (p : List Batch → Prop) : Prop :=
  ∀ event, r = .ok event → ∃ batches, event.batches = some batches ∧ p batches

/-- The batches are those of the LSNs of the range, in this order. -/
def Exact (batches : List Batch) : Prop :=
  batches.map some
    = (List.range' range.baseLsn (range.maxLsn + 1 - range.baseLsn)).map
      fun lsn ↦ s.accepted.lookup lsn

instance [DecidableEq Batch] (s : WalTable Schema Batch) (range : LsnRange)
    (batches : List Batch) : Decidable (s.Exact range batches) :=
  inferInstanceAs (Decidable (_ = _))

/-- The range is in the cache, or the files have all of its frames, or none of them. -/
def Whole : Prop :=
  (∃ e ∈ s.cache.entries, e.key = .new s.table range) ∨
  (∀ w ∈ s.accepted, range.baseLsn ≤ w.1 → w.1 ≤ range.maxLsn →
    w.1 ∈ (chain s.files).map Prod.fst) ∨
  ∀ w ∈ chain s.files, ¬(range.baseLsn ≤ w.1 ∧ w.1 ≤ range.maxLsn)

instance : Decidable (s.Whole range) :=
  inferInstanceAs (Decidable ((∃ e ∈ _, _) ∨ (∀ w ∈ _, _) ∨ ∀ w ∈ _, _))

variable (e : LogEntry Schema Batch)

/-- The writer accepts the entry, and readers find it again. -/
def Fits : Prop := e.Accepted ipc ∧ e.Readable ipc

instance : Decidable (Fits ipc e) :=
  decidable_of_iff (((e.frame ipc).blockLen ≤ defaultWalBlockMaxBytes ∧ e.sequence + 1 < 2 ^ 64) ∧
    e.Readable ipc) ⟨fun h ↦ ⟨⟨h.1.1, h.1.2⟩, h.2⟩, fun h ↦ ⟨⟨h.1.1, h.1.2⟩, h.2⟩⟩

/-- Loads find a range whole, and the frames that are written can be read back. -/
def LoadsWhole : WalTableAction Schema Batch → Prop
  | .load range => s.Whole range
  | .write => ∀ w ∈ s.pending.head?, ∀ e ∈ s.nextEntry (.batch w.2 w.1), Fits ipc e
  | .startSegment _ _ _ schema => Fits ipc (.schema schema)
  | .memtableEnd endLsn closed new => ∀ e ∈ s.nextEntry (.memtableEnd endLsn closed new), Fits ipc e
  | .append _ _ | .fault | .finishSegment _ | .unlink _ | .otherLoad _ _ => True

instance (a : WalTableAction Schema Batch) : Decidable (s.LoadsWhole ipc a) := by
  unfold LoadsWhole
  split <;> infer_instance

end WalTable

/-! ## Writes in the order of their LSNs -/

section

variable {writes : List (Write Batch)} {range : LsnRange} (hsort : writes.Pairwise (·.1 < ·.1))

include hsort

theorem lookup_of_mem {w : Write Batch} (hw : w ∈ writes) : writes.lookup w.1 = some w.2 := by
  induction writes with
  | nil => cases hw
  | cons x writes ih =>
    obtain ⟨hfst, hsort⟩ := pairwise_cons.mp hsort
    rcases mem_cons.mp hw with rfl | hw
    · rw [lookup_cons, beq_self_eq_true]
    · rw [lookup_cons, beq_false_of_ne (hfst w hw).ne']
      exact ih hsort hw

/-- If every LSN of the range is there, the batches of the range are found one by one. -/
theorem map_some_load (hall : ∀ lsn ∈ List.range' range.baseLsn (range.maxLsn + 1 - range.baseLsn),
      lsn ∈ writes.map Prod.fst) :
    (range.load writes).map some
      = (List.range' range.baseLsn (range.maxLsn + 1 - range.baseLsn)).map
          fun lsn ↦ writes.lookup lsn := by
  have hle := range.le
  have hlsns : (writes.filter fun w ↦ range.baseLsn ≤ w.1 ∧ w.1 ≤ range.maxLsn).map Prod.fst
      = List.range' range.baseLsn (range.maxLsn + 1 - range.baseLsn) := by
    refine List.Pairwise.eq_of_mem_iff (r := (· < ·)) ?_ pairwise_lt_range' fun lsn ↦ ?_
    · exact pairwise_map.mpr (hsort.filter _)
    · rw [mem_range'_1]
      constructor
      · intro h
        obtain ⟨w, hw, rfl⟩ := List.mem_map.mp h
        have hw := of_decide_eq_true (mem_filter.mp hw).2
        omega
      · intro h
        obtain ⟨w, hw, rfl⟩ := List.mem_map.mp (hall lsn (mem_range'_1.mpr h))
        exact List.mem_map_of_mem (mem_filter.mpr ⟨hw, decide_eq_true (by omega)⟩)
  rw [← hlsns, List.map_map, LsnRange.load, List.map_map]
  refine map_congr_left fun w hw ↦ ?_
  exact (lookup_of_mem hsort (mem_of_mem_filter hw)).symm

/-- A part of the writes has the same batches of the range exactly if it has all of its LSNs. -/
theorem load_eq_load_iff {part : List (Write Batch)} (hpart : part.Sublist writes) :
    range.load part = range.load writes ↔
      ∀ w ∈ writes, range.baseLsn ≤ w.1 → w.1 ≤ range.maxLsn → w.1 ∈ part.map Prod.fst := by
  have hfilt := hpart.filter fun w ↦ decide (range.baseLsn ≤ w.1 ∧ w.1 ≤ range.maxLsn)
  constructor
  · intro h w hw hbase hmax
    have hlen := congrArg List.length h
    rw [LsnRange.load, LsnRange.load, length_map, length_map] at hlen
    have hmem : w ∈ writes.filter fun w ↦ decide (range.baseLsn ≤ w.1 ∧ w.1 ≤ range.maxLsn) :=
      mem_filter.mpr ⟨hw, decide_eq_true ⟨hbase, hmax⟩⟩
    rw [← hfilt.eq_of_length hlen] at hmem
    exact List.mem_map_of_mem (mem_of_mem_filter hmem)
  · intro h
    refine congrArg (List.map Prod.snd) (hfilt.eq_of_length_le ?_)
    have hnd : (writes.filter fun w ↦ range.baseLsn ≤ w.1 ∧ w.1 ≤ range.maxLsn).Nodup :=
      (hsort.filter _).imp fun hlt heq ↦ absurd (congrArg Prod.fst heq) hlt.ne
    refine hnd.length_le_of_subset fun w hw ↦ ?_
    obtain ⟨hw, hmem⟩ := mem_filter.mp hw
    have hin := of_decide_eq_true hmem
    obtain ⟨w', hw', hlsn⟩ := List.mem_map.mp (h w hw hin.1 hin.2)
    -- the LSN determines the write
    have hlook := lookup_of_mem hsort (hpart.subset hw')
    rw [hlsn, lookup_of_mem hsort hw] at hlook
    obtain rfl : w = w' := Prod.ext hlsn.symm (some.inj hlook)
    exact mem_filter.mpr ⟨hw', hmem⟩

end

/-! ## What every run keeps -/

namespace WalTable

variable {crc32 ipc} {s s' : WalTable Schema Batch} {range : LsnRange} {blockMaxBytes : ℕ}

/-- The files and the pending frames are part of the accepted writes, in the same order, and what
the cache has of the table is exact. -/
structure Inv (ipc : ArrowIpc Schema Batch) (s : WalTable Schema Batch) : Prop where
  sorted : s.accepted.Pairwise (·.1 < ·.1)
  sublist : (chain s.files ++ s.pending.map fun w ↦ (w.1.toNat, w.2)).Sublist s.accepted
  readable : ∀ f ∈ s.files, f.Readable ipc
  ids : s.files.Pairwise (·.fileId < ·.fileId)
  cache : ∀ e ∈ s.cache.entries, ∀ range, e.key = .new s.table range → s.Exact range e.batches

theorem inv_initial (table : String) (limitBytes : ℕ) :
    (initial table limitBytes : WalTable Schema Batch).Inv ipc :=
  ⟨.nil, .slnil, nofun, .nil, nofun⟩

theorem Inv.sublist_chain (h : s.Inv ipc) : (chain s.files).Sublist s.accepted :=
  (sublist_append_left _ _).trans h.sublist

theorem Inv.read_files (h : s.Inv ipc) :
    WalFile.readWalBatchesForLsnRange crc32 ipc (s.files.map (file crc32 ipc)) range
      = .ok (range.load (chain s.files)) :=
  readWalBatchesForLsnRange_chain h.readable h.ids (h.sorted.sublist h.sublist_chain)

variable {batches : List Batch} {x : List (LoggedFile Schema Batch) × LoggedFile Schema Batch}
  {pending : List (UInt64 × Batch)}

theorem Inv.exact_iff (h : s.Inv ipc) (hcap : s.Captured range) :
    s.Exact range batches ↔ batches = range.load s.accepted := by
  rw [Exact, ← map_some_load h.sorted hcap]
  exact (map_injective_iff.mpr (some_injective _)).eq_iff

/-- A load is served from the cache; or the files have nothing of the range, and it fails; or it
returns what the files have, and puts that into the cache. -/
theorem Inv.materialize_cases (h : s.Inv ipc) (crc32 : Bytes → UInt32) (range : LsnRange) :
    (∃ e ∈ s.cache.entries, e.key = .new s.table range ∧ s.materialize crc32 ipc range
        = (.ok ⟨range, some e.batches⟩, some (s.cache.getBatches (.new s.table range)).2)) ∨
    (∀ e ∈ s.cache.entries, e.key ≠ .new s.table range) ∧
      (range.load (chain s.files) = [] ∧
        (∃ e, s.materialize crc32 ipc range = (.error e, some s.cache)) ∨
      range.load (chain s.files) ≠ [] ∧ s.materialize crc32 ipc range
          = (.ok ⟨range, some (range.load (chain s.files))⟩,
              some (s.cache.putBatches ipc.arrayMemorySize (.new s.table range)
                (range.load (chain s.files))))) := by
  have hrng : LsnRange.new range.baseLsn range.maxLsn = range := by
    rw [LsnRange.new, dif_pos range.le]
  have hno : (⟨range, none⟩ : LogEvent Batch).hasBatches = false := rfl
  rw [materialize, LogEvent.fromLsnRange, hrng, materializeLogEventWithCache, hno,
    if_neg Bool.false_ne_true]
  dsimp only [map_some]
  rcases hget : s.cache.getBatches (.new s.table range) with ⟨_ | _, _⟩
  · have hfst := congrArg Prod.fst hget
    refine .inr ⟨getBatches_eq_none hfst, ?_⟩
    dsimp only
    rw [h.read_files]
    dsimp only
    rcases hload : range.load (chain s.files) with _ | ⟨_, _⟩
    · exact .inl ⟨rfl, _, rfl⟩
    · exact .inr ⟨nofun, rfl⟩
  · obtain ⟨e, he, hkey, rfl⟩ := getBatches_eq_some (congrArg Prod.fst hget)
    exact .inl ⟨e, he, hkey, rfl⟩

/-- The batches that are returned are those of the range exactly if the range is found whole. -/
theorem Inv.returns_exact_iff (h : s.Inv ipc) (crc32 : Bytes → UInt32) (hcap : s.Captured range) :
    Returns (s.materialize crc32 ipc range).1 (s.Exact range) ↔ s.Whole range := by
  rcases h.materialize_cases crc32 range with ⟨e, he, hkey, hr⟩ | ⟨hmiss, ⟨hnil, e, hr⟩ | ⟨hne, hr⟩⟩
  · rw [hr]
    refine iff_of_true (fun event hev ↦ ?_) (.inl ⟨e, he, hkey⟩)
    cases hev
    exact ⟨e.batches, rfl, h.cache e he range hkey⟩
  · rw [hr]
    exact iff_of_true nofun (.inr (.inr (LsnRange.load_eq_nil_iff.mp hnil)))
  · have hwh : s.Whole range ↔ ∀ w ∈ s.accepted, range.baseLsn ≤ w.1 → w.1 ≤ range.maxLsn →
        w.1 ∈ (chain s.files).map Prod.fst := by
      constructor
      · rintro (⟨e, he, hkey⟩ | hall | hnone)
        · exact absurd hkey (hmiss e he)
        · exact hall
        · exact absurd (LsnRange.load_eq_nil_iff.mpr hnone) hne
      · exact fun hall ↦ .inr (.inl hall)
    rw [hr, hwh, ← load_eq_load_iff h.sorted h.sublist_chain, ← h.exact_iff hcap]
    constructor
    · intro hret
      obtain ⟨_, hbs, hex⟩ := hret _ rfl
      exact some.inj hbs ▸ hex
    · intro hex event hev
      cases hev
      exact ⟨_, rfl, hex⟩

/-! ### The steps -/

theorem chain_concat (files : List (LoggedFile Schema Batch)) (f : LoggedFile Schema Batch) :
    chain (files ++ [f]) = chain files ++ f.writes := by
  rw [chain, flatMap_append, flatMap_singleton, chain]

theorem active_eq_some (h : s.active = some x) : s.files = x.1 ++ [x.2] := by
  obtain ⟨f, hf, hx⟩ := bind_eq_some_iff.mp h
  obtain ⟨-, rfl⟩ := ite_some_none_eq_some.mp hx
  exact (dropLast_append_getLast? f hf).symm

theorem mem_of_active (h : s.active = some x) : x.2 ∈ s.files := by
  rw [active_eq_some h]
  exact mem_append_right _ (mem_singleton_self _)

section

variable (h : s.Inv ipc)

include h

theorem Inv.setActive (hact : s.active = some x) {f : LoggedFile Schema Batch}
    (hid : f.fileId = x.2.fileId) (hread : f.Readable ipc)
    (hsame : f.writes ++ pending.map (fun w ↦ (w.1.toNat, w.2))
      = x.2.writes ++ s.pending.map fun w ↦ (w.1.toNat, w.2)) :
    Inv ipc { s with files := x.1 ++ [f], pending } := by
  have hfs := active_eq_some hact
  have hsubl := h.sublist
  have hids := h.ids
  have hrdbl := h.readable
  rw [hfs] at hsubl hids hrdbl
  refine ⟨h.sorted, ?_, ?_, ?_, h.cache⟩
  · rw [chain_concat, append_assoc, ← hsame, ← append_assoc] at hsubl
    rw [chain_concat]
    exact hsubl
  · exact forall_mem_append.mpr ⟨(forall_mem_append.mp hrdbl).1, forall_mem_singleton.mpr hread⟩
  · obtain ⟨hfrt, -, hlast⟩ := pairwise_append.mp hids
    refine pairwise_append.mpr ⟨hfrt, pairwise_singleton _ _, fun g hg g' hg' ↦ ?_⟩
    rw [mem_singleton.mp hg', hid]
    exact hlast g hg x.2 (mem_singleton_self _)

theorem Inv.appendEntry {op : AppendOp Batch}
    (hfits : ∀ e ∈ s.nextEntry op, Fits ipc e)
    (hpend : ∀ n, (op.entry n : LogEntry Schema Batch).write?.toList
        ++ pending.map (fun w ↦ (w.1.toNat, w.2)) = s.pending.map fun w ↦ (w.1.toNat, w.2))
    (hstep : { s with pending }.appendEntry ipc blockMaxBytes op = some s') : s'.Inv ipc := by
  obtain ⟨x, hx, hstep⟩ := bind_eq_some_iff.mp hstep
  obtain ⟨-, rfl⟩ := ite_some_none_eq_some.mp hstep
  have hact : s.active = some x := hx
  have hent := hfits _ (map_eq_some_iff.mpr ⟨x, hact, rfl⟩)
  refine h.setActive hact (f := { x.2 with log := x.2.log ++ [_] }) rfl ?_ ?_
  · exact forall_mem_append.mpr ⟨h.readable x.2 (mem_of_active hact), forall_mem_singleton.mpr hent⟩
  · have hwrs : ∀ e : LogEntry Schema Batch, [e].filterMap LogEntry.write? = e.write?.toList := by
      rintro (_ | _ | _) <;> rfl
    rw [writes, filterMap_append, hwrs, append_assoc, hpend]
    rfl

theorem Inv.append {lsn : UInt64} {batch : Batch}
    (hstep : s.step crc32 ipc blockMaxBytes (.append lsn batch) = some s') : s'.Inv ipc := by
  obtain ⟨hlast, rfl⟩ := ite_some_none_eq_some.mp hstep
  refine ⟨?_, ?_, h.readable, h.ids, fun e he range hkey ↦ ?_⟩
  · refine pairwise_append.mpr ⟨h.sorted, pairwise_singleton _ _, fun w hw w' hw' ↦ ?_⟩
    rw [mem_singleton.mp hw']
    exact hlast w hw
  · rw [map_append, ← append_assoc]
    exact h.sublist.append (List.Sublist.refl _)
  · -- what was found for an LSN is still found: the new write stands behind the others
    have hex := h.cache e he range hkey
    rw [Exact] at hex ⊢
    rw [hex]
    refine map_congr_left fun n hn ↦ ?_
    have hmem : s.accepted.lookup n ∈ e.batches.map some := by
      rw [hex]
      exact List.mem_map_of_mem hn
    obtain ⟨_, -, hb⟩ := List.mem_map.mp hmem
    rw [lookup_append, ← hb, some_or]

theorem Inv.startSegment {path : String} {memtableId now : ℕ} {schema : Schema}
    (hfits : Fits ipc (.schema schema))
    (hstep : s.step crc32 ipc blockMaxBytes (.startSegment path memtableId now schema) = some s') :
    s'.Inv ipc := by
  obtain ⟨-, rfl⟩ := ite_some_none_eq_some.mp hstep
  refine ⟨h.sorted, ?_, forall_mem_append.mpr ⟨h.readable, ?_⟩, ?_, h.cache⟩
  · rw [chain_concat, show writes _ = [] from rfl, append_nil]
    exact h.sublist
  · exact forall_mem_singleton.mpr (forall_mem_singleton.mpr hfits)
  · refine pairwise_append.mpr ⟨h.ids, pairwise_singleton _ _, fun f hf g hg ↦ ?_⟩
    rw [mem_singleton.mp hg]
    dsimp only
    cases hlast : s.files.getLast? with
    | none =>
      rw [getLast?_eq_none_iff.mp hlast] at hf
      cases hf
    | some last =>
      have hids := h.ids
      rw [← dropLast_append_getLast? last hlast] at hf hids
      rcases mem_append.mp hf with hf | hf
      · have hlt := (pairwise_append.mp hids).2.2 f hf last (mem_singleton_self _)
        exact hlt.trans (Nat.lt_succ_self _)
      · exact mem_singleton.mp hf ▸ Nat.lt_succ_self _

theorem Inv.unlink {fileId : ℕ}
    (hstep : s.step crc32 ipc blockMaxBytes (.unlink fileId) = some s') : s'.Inv ipc := by
  obtain ⟨-, rfl⟩ := ite_some_none_eq_some.mp hstep
  refine ⟨h.sorted, ?_, fun f hf ↦ h.readable f (mem_of_mem_filter hf), h.ids.filter _, h.cache⟩
  exact ((filter_sublist.flatMap _).append (List.Sublist.refl _)).trans h.sublist

theorem Inv.load (hwh : s.Whole range)
    (hstep : s.step crc32 ipc blockMaxBytes (.load range) = some s') : s'.Inv ipc := by
  obtain ⟨hcap, rfl⟩ := ite_some_none_eq_some.mp hstep
  have hcache : (loadWalInsert crc32 ipc s.table (s.files.map (file crc32 ipc)) s.cache
      range).2 = (s.materialize crc32 ipc range).2.getD s.cache := by
    rw [loadWalInsert, materialize]
    split <;> next hr => rw [hr]
  have hret := (h.returns_exact_iff crc32 hcap).mpr hwh
  refine { h with cache := fun e he range' hkey ↦ ?_ }
  dsimp only at he
  rw [hcache] at he
  rcases h.materialize_cases crc32 range with ⟨_, -, -, hr⟩ | ⟨-, ⟨-, _, hr⟩ | ⟨-, hr⟩⟩
  · rw [hr] at he
    exact h.cache e (mem_getBatches he) range' hkey
  · rw [hr] at he
    exact h.cache e he range' hkey
  · rw [hr] at he hret
    rcases mem_putBatches he with ⟨hkey', hbs⟩ | he
    · -- the entry of this load, under a key that determines the range
      obtain ⟨hbase, hmax⟩ : range.baseLsn = range'.baseLsn ∧ range.maxLsn = range'.maxLsn :=
        (WalLoadKey.mk.inj (hkey'.symm.trans hkey)).2
      obtain ⟨_, hb, hex⟩ := hret _ rfl
      rw [← some.inj hb, ← hbs] at hex
      rw [Exact] at hex ⊢
      rw [hex, hbase, hmax]
    · exact h.cache e he range' hkey

theorem Inv.otherLoad {key : WalLoadKey}
    (hstep : s.step crc32 ipc blockMaxBytes (.otherLoad key batches) = some s') : s'.Inv ipc := by
  obtain ⟨hoth, hstep⟩ := ite_none_right_eq_some.mp hstep
  rcases hget : s.cache.getBatches key with ⟨found, cache⟩
  have hold : ∀ e ∈ cache.entries, e ∈ s.cache.entries := by
    have hcache : (s.cache.getBatches key).2 = cache := congrArg Prod.snd hget
    exact fun e he ↦ mem_getBatches (hcache ▸ he)
  rw [hget] at hstep
  rcases found with _ | found
  · cases hstep
    refine { h with cache := fun e he range hkey ↦ ?_ }
    rcases mem_putBatches he with ⟨hkey', -⟩ | he
    · -- the key is that of another table
      exact absurd (congrArg WalLoadKey.table (hkey'.symm.trans hkey)) hoth
    · exact h.cache e (hold e he) range hkey
  · cases hstep
    exact { h with cache := fun e he ↦ h.cache e (hold e he) }

theorem Inv.step {a : WalTableAction Schema Batch} (hok : s.LoadsWhole ipc a)
    (hstep : s.step crc32 ipc blockMaxBytes a = some s') : s'.Inv ipc := by
  cases a with
  | append => exact h.append hstep
  | write =>
    rw [WalTable.step] at hstep
    split at hstep
    · cases hstep
    · next lsn batch pending hpend =>
      refine h.appendEntry (hok (lsn, batch) ?_) (fun n ↦ ?_) hstep
      · rw [hpend]
        rfl
      · rw [hpend]
        rfl
  | fault =>
    cases hstep
    refine { h with sublist := ?_ }
    rw [map_nil, append_nil]
    exact h.sublist_chain
  | startSegment => exact h.startSegment hok hstep
  | finishSegment footer =>
    obtain ⟨x, hx, rfl⟩ := map_eq_some_iff.mp hstep
    exact h.setActive hx (f := { x.2 with footer := some footer }) rfl
      (h.readable x.2 (mem_of_active hx)) rfl
  | memtableEnd =>
    obtain ⟨-, hstep⟩ := ite_none_right_eq_some.mp hstep
    exact h.appendEntry hok (fun _ ↦ rfl) hstep
  | unlink => exact h.unlink hstep
  | load => exact h.load hok hstep
  | otherLoad => exact h.otherLoad hstep

end

/-- **Deferred inserts are loaded completely** in runs whose loads find their ranges whole, and only
then. -/
theorem materialize_exact_iff {table : String} {limitBytes : ℕ}
    (h : Reaches (guarded (LoadsWhole ipc) (step crc32 ipc blockMaxBytes))
      (initial table limitBytes) s) (hcaptured : s.Captured range) :
    Returns (s.materialize crc32 ipc range).1 (s.Exact range) ↔ s.Whole range := by
  have hinv : s.Inv ipc := h.invariant_guarded (inv_initial table limitBytes) fun _ _ _ hs ↦ hs.step
  exact hinv.returns_exact_iff crc32 hcaptured

/-- The table of the examples: two writes are accepted. -/
def twoWrites : List (WalTableAction Unit UInt8) :=
  [.append 1 10, .append 2 20, .startSegment "00000000000000000001.wal" 1 0 ()]

def firstTwo : LsnRange := .new 1 2

/-- Both frames are in the file, and both batches are loaded. -/
theorem whole_range_loaded :
    ∃ s : WalTable Unit UInt8, Reaches (guarded (LoadsWhole byteIpc)
        (step lengthCrc byteIpc defaultWalBlockMaxBytes)) (initial "cpu" 4096) s ∧
      s.Captured firstTwo ∧
      (s.materialize lengthCrc byteIpc firstTwo).1.toOption.bind LogEvent.batches
        = some [10, 20] ∧
      Returns (s.materialize lengthCrc byteIpc firstTwo).1 (s.Exact firstTwo) := by
  refine exists_reaches_of (twoWrites ++ [WalTableAction.write, .write])
    (p := fun s ↦ s.Captured firstTwo ∧
      (s.materialize lengthCrc byteIpc firstTwo).1.toOption.bind LogEvent.batches
        = some [10, 20] ∧ s.Whole firstTwo)
    (by decide +kernel) fun s hrch ⟨hcap, hbs, hwh⟩ ↦ ?_
  exact ⟨hcap, hbs, (materialize_exact_iff hrch hcap).mpr hwh⟩

theorem not_returns {r : Result (LogEvent Batch)} {p : List Batch → Prop}
    (h : r.toOption.bind LogEvent.batches = some batches) (hp : ¬p batches) : ¬Returns r p := by
  intro hret
  obtain ⟨_, hev, hbs⟩ := bind_eq_some_iff.mp h
  rcases r with e | event'
  · cases hev
  · obtain rfl := some.inj hev
    obtain ⟨_, hbs', hp'⟩ := hret event' rfl
    exact hp (some.inj (hbs.symm.trans hbs') ▸ hp')

/-- A run behind which the first batch alone is loaded for the range of both. -/
theorem exists_loads_first (q : WalTable Unit UInt8 → Prop) [DecidablePred q]
    (actions : List (WalTableAction Unit UInt8))
    (hrun : (run (step lengthCrc byteIpc defaultWalBlockMaxBytes) (initial "cpu" 4096)
      actions).any fun s ↦ s.Captured firstTwo ∧ q s ∧
        (s.materialize lengthCrc byteIpc firstTwo).1.toOption.bind LogEvent.batches = some [10] ∧
        ¬s.Exact firstTwo [10]) :
    ∃ s : WalTable Unit UInt8,
      Reaches (step lengthCrc byteIpc defaultWalBlockMaxBytes) (initial "cpu" 4096) s ∧
      s.Captured firstTwo ∧ q s ∧
      ¬Returns (s.materialize lengthCrc byteIpc firstTwo).1 (s.Exact firstTwo) := by
  refine exists_reaches_of actions hrun fun s _ ⟨hcap, hq, hbs, hex⟩ ↦ ?_
  exact ⟨hcap, hq, not_returns hbs hex⟩

/-- Only the first of two frames is in the file when the range is loaded. Its batch is returned for
the whole range. It is returned again when both frames are in the file. -/
theorem partial_range_cached :
    (∃ s : WalTable Unit UInt8,
      Reaches (step lengthCrc byteIpc defaultWalBlockMaxBytes) (initial "cpu" 4096) s ∧
      s.Captured firstTwo ∧ (chain s.files).length = 1 ∧
      ¬Returns (s.materialize lengthCrc byteIpc firstTwo).1 (s.Exact firstTwo)) ∧
    ∃ s : WalTable Unit UInt8,
      Reaches (step lengthCrc byteIpc defaultWalBlockMaxBytes) (initial "cpu" 4096) s ∧
      s.Captured firstTwo ∧ chain s.files = s.accepted ∧
      ¬Returns (s.materialize lengthCrc byteIpc firstTwo).1 (s.Exact firstTwo) := by
  constructor
  · exact exists_loads_first _ (twoWrites ++ [WalTableAction.write]) (by decide +kernel)
  · exact exists_loads_first _ (twoWrites ++ [WalTableAction.write, .load firstTwo, .write])
      (by decide +kernel)

end WalTable

end MonoTS
