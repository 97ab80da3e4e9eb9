import MonoTS.Wal.Chain

/-!
# Following a segment as it grows

`WalFrameCursor` reads a segment that may still be written. It remembers the position behind the
last frame that it could read, and goes back there when what follows is not a frame yet; so between
two calls the reader stands at that position, and a call reads what the file has at that time.

A caller asks for batches until there is none, and comes back when the file has grown (`Polls`,
`Follows`). Because a frame of which bytes are missing is never taken for a frame, each round
returns the batches of the frames that have become complete since the round before. This needs that
the frames can be read at all: see `followed_exactly_iff`.
-/

open List

namespace MonoTS

open LittleEndian ByteStream SegmentHeader LogEntry

variable {Schema Batch : Type*} (crc32 : Bytes → UInt32) (ipc : ArrowIpc Schema Batch)

/-! ## The cursor -/

/-- A reader that follows a file. -/
structure WalFrameCursor (Schema : Type*) where
  memtableId : ℕ
  schema : Option Schema
  /-- The offset behind the last frame that was read. -/
  safePos : ℕ
  /-- The footer was read. -/
  finished : Bool

/-- What one read gives. -/
inductive FrameStep (Batch : Type*) where
  /-- Also for frames that are stepped over. -/
  | schema
  | batch (event : WalFrameEvent Batch)
  | footer
  | eof

namespace WalFrameCursor

/-- A cursor behind the segment header; `none` if there is no file. -/
def openFile (onDisk : Option Bytes) (logicalMemtableId : ℕ) :
    Result (Option (WalFrameCursor Schema)) :=
  match onDisk with
  | none => .ok none
  | some file =>
    match decode file with
    | .error e => .error e
    | .ok (_, behind) => .ok (some ⟨logicalMemtableId, none, file.length - behind.length, false⟩)

variable (c : WalFrameCursor Schema)

def readOneFrame (file : Bytes) : Result (FrameStep Batch) × WalFrameCursor Schema :=
  match readFrame crc32 (file.drop c.safePos) with
  | .stop _ => (.ok .eof, c)
  | .item (frame, payload) _ =>
    let c := { c with safePos := c.safePos + (frameHeaderSize + frame.bodyLen) }
    match frame.recordType with
    | .schema =>
      match ipc.decodeSchema payload with
      | .ok s => (.ok .schema, { c with schema := some s })
      | .error _ => (.ok .schema, c)
    | .batch =>
      match ipc.decodeBatch payload with
      | .ok b => (.ok (.batch ⟨frame.lsn, frame.sequence, b⟩), c)
      | .error e => (.error e, c)
    | .footer => (.ok .footer, c)
    | .memTableEnd | .unknown _ => (.ok .schema, c)

/-- The loop of `next_batch`. Every frame takes bytes, so the length of the file is enough fuel. -/
def nextBatchLoop (file : Bytes) :
    ℕ → WalFrameCursor Schema → Result (Option (WalFrameEvent Batch)) × WalFrameCursor Schema
  | 0, c => (.ok none, c)
  | fuel + 1, c =>
    match c.readOneFrame crc32 ipc file with
    | (.error e, c) => (.error e, c)
    | (.ok (.batch event), c) => (.ok (some event), c)
    | (.ok .schema, c) => nextBatchLoop file fuel c
    | (.ok .footer, c) => (.ok none, { c with finished := true })
    | (.ok .eof, c) => (.ok none, c)

def nextBatch (file : Bytes) : Result (Option (WalFrameEvent Batch)) × WalFrameCursor Schema :=
  if c.finished then (.ok none, c)
  else nextBatchLoop crc32 ipc file (file.length + 1) c

/-- The caller asks for batches until there is none. -/
inductive Polls (file : Bytes) :
    WalFrameCursor Schema → List (WalFrameEvent Batch) → WalFrameCursor Schema → Prop
  | done {c c' : WalFrameCursor Schema} (h : c.nextBatch crc32 ipc file = (.ok none, c')) :
    Polls file c [] c'
  | more {c c' c'' : WalFrameCursor Schema} {event : WalFrameEvent Batch}
    {events : List (WalFrameEvent Batch)}
    (h : c.nextBatch crc32 ipc file = (.ok (some event), c')) (hpolls : Polls file c' events c'') :
    Polls file c (event :: events) c''

/-- The caller does so each time the file has grown to the next length. -/
inductive Follows (file : Bytes) :
    WalFrameCursor Schema → List ℕ → List (WalFrameEvent Batch) → WalFrameCursor Schema → Prop
  | nil (c : WalFrameCursor Schema) : Follows file c [] [] c
  | cons {c c' c'' : WalFrameCursor Schema} {n : ℕ} {cuts : List ℕ}
    {events events' : List (WalFrameEvent Batch)}
    (hpolls : Polls crc32 ipc (file.take n) c events c')
    (hfollows : Follows file c' cuts events' c'') :
    Follows file c (n :: cuts) (events ++ events') c''

variable {crc32 ipc} {file : Bytes} {c : WalFrameCursor Schema}
  {events : List (WalFrameEvent Batch)}

theorem Polls.unique {c₁ c₂ : WalFrameCursor Schema} {events₁ events₂ : List (WalFrameEvent Batch)}
    (h₁ : Polls crc32 ipc file c events₁ c₁) (h₂ : Polls crc32 ipc file c events₂ c₂) :
    events₁ = events₂ ∧ c₁ = c₂ := by
  induction h₁ generalizing events₂ with
  | done h =>
    cases h₂ with
    | done h' =>
      rw [h] at h'
      exact ⟨rfl, (Prod.mk.inj h').2⟩
    | more h' =>
      rw [h] at h'
      cases h'
  | more h _ ih =>
    cases h₂ with
    | done h' =>
      rw [h] at h'
      cases h'
    | more h' hpoll =>
      rw [h] at h'
      cases h'
      obtain ⟨rfl, rfl⟩ := ih hpoll
      exact ⟨rfl, rfl⟩

theorem Follows.polls {c' : WalFrameCursor Schema} {n : ℕ}
    (h : Follows crc32 ipc file c [n] events c') : Polls crc32 ipc (file.take n) c events c' := by
  cases h with
  | cons hpoll hnil =>
    cases hnil
    rwa [append_nil]

/-! ## One frame -/

section

variable {c : WalFrameCursor Schema} {file : Bytes}

/-- Behind a frame the cursor stands in front of what follows it. -/
theorem drop_behind_frame {h : FrameHeader} {payload behind : Bytes}
    (hread : readFrame crc32 (file.drop c.safePos) = .item (h, payload) behind) :
    file.drop (c.safePos + (frameHeaderSize + h.bodyLen)) = behind := by
  obtain ⟨-, -, -, -, rfl⟩ := readFrame_eq_item crc32 hread
  rw [drop_drop, drop_drop]

variable (crc32 ipc) in
/-- A call without progress stays where it is, and otherwise there is less to read. -/
theorem readOneFrame_progress (c : WalFrameCursor Schema) (file : Bytes) :
    (c.readOneFrame crc32 ipc file).1 = .ok (.eof : FrameStep Batch) ∨
      (file.drop (c.readOneFrame crc32 ipc file).2.safePos).length <
        (file.drop c.safePos).length := by
  rw [readOneFrame]
  cases hread : readFrame crc32 (file.drop c.safePos) with
  | stop => exact .inl rfl
  | item a =>
    obtain ⟨h, payload⟩ := a
    refine .inr ?_
    have hless := consuming_readFrame crc32 hread
    rw [← drop_behind_frame hread] at hless
    dsimp only
    cases h.recordType with
    | schema => cases ipc.decodeSchema payload <;> exact hless
    | batch => cases ipc.decodeBatch payload <;> exact hless
    | footer | memTableEnd | unknown => exact hless

theorem nextBatchLoop_eq {fuel fuel' : ℕ} (hfuel : (file.drop c.safePos).length < fuel)
    (hfuel' : (file.drop c.safePos).length < fuel') :
    (nextBatchLoop crc32 ipc file fuel c : Result (Option (WalFrameEvent Batch)) × _) =
      nextBatchLoop crc32 ipc file fuel' c := by
  induction fuel generalizing c fuel' with
  | zero => omega
  | succ fuel ih =>
    obtain ⟨fuel', rfl⟩ := Nat.exists_eq_add_one_of_ne_zero (by omega : fuel' ≠ 0)
    rw [nextBatchLoop, nextBatchLoop]
    rcases hstep : c.readOneFrame crc32 ipc file with ⟨_ | step, _⟩
    · rfl
    · have hprog := readOneFrame_progress crc32 ipc c file
      rw [hstep] at hprog
      cases step with
      | schema =>
        have hless := hprog.resolve_left nofun
        exact ih (by dsimp only at hless; omega) (by dsimp only at hless; omega)
      | batch | footer | eof => rfl

theorem nextBatch_eq (hopen : c.finished = false) :
    (c.nextBatch crc32 ipc file : Result (Option (WalFrameEvent Batch)) × _) =
      match c.readOneFrame crc32 ipc file with
      | (.error e, c') => (.error e, c')
      | (.ok (.batch event), c') => (.ok (some event), c')
      | (.ok .schema, c') => nextBatchLoop crc32 ipc file (file.length + 1) c'
      | (.ok .footer, c') => (.ok none, { c' with finished := true })
      | (.ok .eof, c') => (.ok none, c') := by
  rw [nextBatch, if_neg (by rw [hopen]; exact Bool.false_ne_true), nextBatchLoop]
  have hprog := readOneFrame_progress crc32 ipc c file
  rcases hstep : c.readOneFrame crc32 ipc file with ⟨_ | step, _⟩
  · rfl
  · rw [hstep] at hprog
    cases step with
    | schema =>
      have hless := hprog.resolve_left nofun
      rw [length_drop, length_drop] at hless
      refine nextBatchLoop_eq ?_ ?_ <;> rw [length_drop] <;> dsimp only at hless ⊢ <;> omega
    | batch | footer | eof => rfl

variable {c' : WalFrameCursor Schema}

theorem nextBatch_of_skip (hopen : c.finished = false) (hopen' : c'.finished = false)
    (hstep : c.readOneFrame crc32 ipc file = (.ok (.schema : FrameStep Batch), c')) :
    (c.nextBatch crc32 ipc file : Result (Option (WalFrameEvent Batch)) × _) =
      c'.nextBatch crc32 ipc file := by
  rw [nextBatch_eq hopen, hstep, nextBatch, if_neg (by rw [hopen']; exact Bool.false_ne_true)]

theorem Polls.of_nextBatch_eq {c'' : WalFrameCursor Schema} {events : List (WalFrameEvent Batch)}
    (h : Polls crc32 ipc file c' events c'')
    (heq : (c.nextBatch crc32 ipc file : Result (Option (WalFrameEvent Batch)) × _) =
      c'.nextBatch crc32 ipc file) : Polls crc32 ipc file c events c'' := by
  cases h with
  | done h => exact .done (heq.trans h)
  | more h hpoll => exact .more (heq.trans h) hpoll

end

/-! ## Polling a file -/

/-- The bytes of the frames. -/
def frameSizes (xs : List (FrameHeader × Bytes)) : ℕ :=
  (xs.map fun x ↦ frameHeaderSize + x.1.bodyLen).sum

variable {xs : List (FrameHeader × Bytes)}

theorem frameSizes_eq (h : ∀ x ∈ xs, Stored crc32 x) :
    frameSizes xs = (xs.flatMap storedBytes).length := by
  rw [frameSizes, length_flatMap]
  congr 1
  exact map_congr_left fun x hx ↦ (h x hx).length_eq.symm

/-- The first of the frames is read here, and the others are found behind it. -/
theorem readFrame_of_segmentFrames {x : FrameHeader × Bytes}
    {read rest : List ((FrameHeader × Bytes) × Bytes)} (hread : read.map Prod.fst = x :: xs)
    (hfr : (segmentFrames crc32 (file.drop c.safePos)).1 = read ++ rest) :
    ∃ behind read', readFrame crc32 (file.drop c.safePos) = .item x behind ∧
      read'.map Prod.fst = xs ∧ (segmentFrames crc32
        (file.drop (c.safePos + (frameHeaderSize + x.1.bodyLen)))).1 = read' ++ rest := by
  obtain ⟨⟨_, behind⟩, read', rfl, rfl, hread'⟩ := map_eq_cons_iff.mp hread
  obtain ⟨hframe, hfr⟩ := next_of_items_cons (consuming_readFrame crc32) hfr
  rw [← drop_behind_frame hframe] at hfr
  exact ⟨behind, read', hframe, hread', hfr⟩

/-- Frames that a reader finds in front of others are polled first. -/
theorem polls_numbered {read rest : List ((FrameHeader × Bytes) × Bytes)} {next behind : ℕ}
    (hnum : Numbered ipc next xs behind events) (hread : read.map Prod.fst = xs)
    (hopen : c.finished = false)
    (hfr : (segmentFrames crc32 (file.drop c.safePos)).1 = read ++ rest) :
    ∃ c' : WalFrameCursor Schema, c'.safePos = c.safePos + frameSizes xs ∧ c'.finished = false ∧
      (segmentFrames crc32 (file.drop c'.safePos)).1 = rest ∧
      ∀ events' c'', Polls crc32 ipc file c' events' c'' →
        Polls crc32 ipc file c (events ++ events') c'' := by
  induction hnum generalizing c read with
  | nil =>
    rw [map_eq_nil_iff.mp hread, nil_append] at hfr
    exact ⟨c, rfl, hopen, hfr, fun _ _ ↦ id⟩
  | @schema _ _ _ _ h _ s htype _ _ hdec _ ih =>
    obtain ⟨_, _, hframe, hread', hfr⟩ := readFrame_of_segmentFrames hread hfr
    obtain ⟨c', hpos, hopen', hrest, hpoll⟩ := ih (c := { c with
      safePos := c.safePos + (frameHeaderSize + h.bodyLen), schema := some s }) hread' hopen hfr
    refine ⟨c', hpos.trans (Nat.add_assoc _ _ _), hopen', hrest, fun events' c'' h'' ↦ ?_⟩
    refine (hpoll events' c'' h'').of_nextBatch_eq (nextBatch_of_skip hopen hopen ?_)
    simp only [readOneFrame, hframe, htype, hdec]
  | @batch _ _ _ _ h _ b htype hseq _ hdec _ ih =>
    obtain ⟨_, _, hframe, hread', hfr⟩ := readFrame_of_segmentFrames hread hfr
    obtain ⟨c', hpos, hopen', hrest, hpoll⟩ := ih (c := { c with
      safePos := c.safePos + (frameHeaderSize + h.bodyLen) }) hread' hopen hfr
    refine ⟨c', hpos.trans (Nat.add_assoc _ _ _), hopen', hrest, fun events' c'' h'' ↦ ?_⟩
    refine .more ?_ (hpoll events' c'' h'')
    rw [nextBatch_eq hopen]
    simp only [readOneFrame, hframe, htype, hdec, hseq]
  | @skipped _ _ _ _ h payload htype _ _ _ ih =>
    obtain ⟨_, _, hframe, hread', hfr⟩ := readFrame_of_segmentFrames hread hfr
    obtain ⟨c', hpos, hopen', hrest, hpoll⟩ := ih (c := { c with
      safePos := c.safePos + (frameHeaderSize + h.bodyLen) }) hread' hopen hfr
    refine ⟨c', hpos.trans (Nat.add_assoc _ _ _), hopen', hrest, fun events' c'' h'' ↦ ?_⟩
    refine (hpoll events' c'' h'').of_nextBatch_eq (nextBatch_of_skip hopen hopen ?_)
    rw [readOneFrame, hframe]
    rcases htype.cases with hrt | ⟨_, hrt⟩
    all_goals simp only [hrt]

theorem polls_nil (hopen : c.finished = false)
    (hfr : (segmentFrames crc32 (file.drop c.safePos)).1 = []) :
    Polls crc32 ipc file c ([] : List (WalFrameEvent Batch)) c := by
  obtain ⟨_, hstop⟩ := next_of_items_nil (consuming_readFrame crc32) hfr
  refine .done ?_
  rw [nextBatch_eq hopen]
  simp only [readOneFrame, hstop]

theorem polls_footer (hopen : c.finished = false) {x : (FrameHeader × Bytes) × Bytes}
    (htype : x.1.1.recordType = .footer)
    (hfrs : (segmentFrames crc32 (file.drop c.safePos)).1 = [x]) :
    Polls crc32 ipc file c ([] : List (WalFrameEvent Batch))
      { c with
        safePos := c.safePos + (frameHeaderSize + x.1.1.bodyLen)
        finished := true } := by
  obtain ⟨hfr, -⟩ := next_of_items_cons (consuming_readFrame crc32) hfrs
  refine .done ?_
  rw [nextBatch_eq hopen]
  simp only [readOneFrame, hfr, htype]

theorem polls_of_finished (h : c.finished = true) :
    Polls crc32 ipc file c ([] : List (WalFrameEvent Batch)) c :=
  .done (if_pos h)

/-! ## A file that grows -/

section

variable {head : Bytes} {body : List (FrameHeader × Bytes)} {footer : FrameHeader × Bytes}

variable (head body footer) in
/-- The cursor has read what is complete within the first `n` bytes. -/
inductive CaughtUp (c : WalFrameCursor Schema) (n : ℕ) : Prop
  | reading (hopen : c.finished = false) (hpos : c.safePos = head.length +
      ((wholeItems storedBytes (n - head.length) body).flatMap storedBytes).length)
    (hlt : n < (closedFile head body footer).length)
  | finished (hfinished : c.finished = true) (hle : (closedFile head body footer).length ≤ n)

/-- What a reader finds in a part of the file, behind frames that it has read. -/
theorem take_drop_closedFile {pre post : List (FrameHeader × Bytes)} (hbody : body = pre ++ post)
    {m : ℕ} (hm : head.length + (pre.flatMap storedBytes).length ≤ m) :
    ((closedFile head body footer).take m).drop
        (head.length + (pre.flatMap storedBytes).length) =
      ((post ++ [footer]).flatMap storedBytes).take
        (m - head.length - (pre.flatMap storedBytes).length) := by
  have hfile : closedFile head body footer =
      (head ++ pre.flatMap storedBytes) ++ (post ++ [footer]).flatMap storedBytes := by
    rw [closedFile, hbody, append_assoc pre, flatMap_append, append_assoc head]
  rw [hfile, ← length_append, take_append, take_of_length_le (by simpa using hm),
    drop_left, length_append, Nat.sub_add_eq]

variable {c : WalFrameCursor Schema} {events : List (WalFrameEvent Batch)}

/-- One round: the batches are those of the frames that have become complete. -/
theorem CaughtUp.poll {n m behind : ℕ} (h : CaughtUp head body footer c n)
    (hst : ∀ x ∈ body ++ [footer], Stored crc32 x) (hnum : Numbered ipc 1 body behind events)
    (hfoot : footer.1.recordType = .footer) (hn : head.length ≤ n) (hnm : n ≤ m) :
    ∃ new c', Polls crc32 ipc ((closedFile head body footer).take m) c new c' ∧
      CaughtUp head body footer c' m ∧
      (wholeItems storedBytes (m - head.length) body).filterMap (frameEvent? ipc) =
        (wholeItems storedBytes (n - head.length) body).filterMap (frameEvent? ipc) ++ new := by
  have hlen := length_closedFile head body footer
  cases h with
  | finished hfin hle =>
    refine ⟨[], c, polls_of_finished hfin, .finished hfin (hle.trans hnm), ?_⟩
    rw [wholeItems_eq_self (by omega), wholeItems_eq_self (by omega), append_nil]
  | reading hopen hpos =>
    obtain ⟨post, hbody, _⟩ := wholeItems_spec storedBytes (n - head.length) body
    generalize wholeItems storedBytes (n - head.length) body = pre at *
    have hst' : ∀ x ∈ post ++ [footer], Stored crc32 x := fun x hx ↦ hst x (by
      rw [hbody, append_assoc]
      exact mem_append_right _ hx)
    have hfd := segmentFrames_take crc32 hst' (m - head.length - (pre.flatMap storedBytes).length)
    rw [← take_drop_closedFile hbody (by omega), ← hpos] at hfd
    have hsize : (body.flatMap storedBytes).length =
        (pre.flatMap storedBytes).length + (post.flatMap storedBytes).length := by
      rw [hbody, flatMap_append, length_append]
    have hlengthPost : ((post ++ [footer]).flatMap storedBytes).length =
        (post.flatMap storedBytes).length + (storedBytes footer).length := by
      rw [flatMap_append, length_append, flatMap_singleton]
    rw [hbody] at hnum
    obtain ⟨_, _, events₂, -, hpost⟩ := hnum.of_append
    have hwh : wholeItems storedBytes (m - head.length) body = pre ++
        wholeItems storedBytes (m - head.length - (pre.flatMap storedBytes).length) post := by
      rw [hbody, wholeItems_append (by omega)]
    rcases Nat.lt_or_ge m (closedFile head body footer).length with hm | hm
    · -- the footer is not there yet
      rw [wholeItems_concat (by omega)] at hfd
      obtain ⟨_, hlater, -⟩ := wholeItems_spec storedBytes
        (m - head.length - (pre.flatMap storedBytes).length) post
      rw [hlater] at hpost
      obtain ⟨_, new, _, hnew, -⟩ := hpost.of_append
      obtain ⟨c', hpos', hopen', hrest, hpoll⟩ := polls_numbered hnew hfd hopen (append_nil _).symm
      refine ⟨new, c', ?_, .reading hopen' ?_ hm, ?_⟩
      · exact append_nil new ▸ hpoll [] c' (polls_nil hopen' hrest)
      · rw [hpos', hpos, hwh, flatMap_append, length_append, frameSizes_eq, Nat.add_assoc]
        intro x hx
        refine hst' x (mem_append_left _ ?_)
        rw [hlater]
        exact mem_append_left _ hx
      · rw [hwh, filterMap_append, ← hnew.events_eq]
    · rw [wholeItems_eq_self (by omega)] at hfd
      obtain ⟨_, _, hfr, hread, hlast⟩ := map_eq_append_iff.mp hfd
      obtain ⟨x, rfl, hx⟩ := map_eq_singleton_iff.mp hlast
      obtain ⟨c', _, hopen', hrest, hpoll⟩ := polls_numbered hpost hread hopen hfr
      refine ⟨events₂, { c' with
        safePos := c'.safePos + (frameHeaderSize + x.1.1.bodyLen)
        finished := true }, ?_, .finished rfl hm, ?_⟩
      · exact append_nil events₂ ▸ hpoll [] _ (polls_footer hopen' (by rw [hx]; exact hfoot) hrest)
      · rw [hwh, wholeItems_eq_self (by omega), filterMap_append, ← hpost.events_eq]

/-- Round after round: the batches so far are those of the frames that are complete. -/
theorem CaughtUp.follow {n behind : ℕ} {cuts : List ℕ} (h : CaughtUp head body footer c n)
    (hst : ∀ x ∈ body ++ [footer], Stored crc32 x)
    (hnum : Numbered ipc 1 body behind events) (hfoot : footer.1.recordType = .footer)
    (hn : head.length ≤ n) (hcuts : (n :: cuts).Pairwise (· ≤ ·)) :
    ∃ new c', Follows crc32 ipc (closedFile head body footer) c cuts new c' ∧
      CaughtUp head body footer c' ((n :: cuts).getLast (cons_ne_nil _ _)) ∧
      (wholeItems storedBytes ((n :: cuts).getLast (cons_ne_nil _ _) - head.length)
          body).filterMap (frameEvent? ipc) =
        (wholeItems storedBytes (n - head.length) body).filterMap (frameEvent? ipc) ++ new := by
  induction cuts generalizing c n with
  | nil => exact ⟨[], c, .nil c, h, (append_nil _).symm⟩
  | cons m cuts ih =>
    obtain ⟨hle, hcuts⟩ := pairwise_cons.mp hcuts
    have hnm := hle m mem_cons_self
    obtain ⟨new, _, hpoll, hc', hnew⟩ := h.poll hst hnum hfoot hn hnm
    obtain ⟨new', c'', hfol, _, hnew'⟩ := ih hc' (hn.trans hnm) hcuts
    refine ⟨new ++ new', c'', .cons hpoll hfol, ?_, ?_⟩
    · rwa [getLast_cons (cons_ne_nil _ _)]
    · rw [getLast_cons (cons_ne_nil _ _), hnew', hnew, append_assoc]

end

/-! ## Segments as logs -/

theorem openFile_eq (memtableId now mid : ℕ) (rest : Bytes) :
    openFile (some ((newV1 memtableId now).encode ++ rest)) mid =
      .ok (some (⟨mid, none, segmentHeaderSize, false⟩ : WalFrameCursor Schema)) := by
  simp only [openFile, decode_encode_newV1, length_append, length_encode, Nat.add_sub_cancel]

theorem wholeItems_zero (xs : List (FrameHeader × Bytes)) : wholeItems storedBytes 0 xs = [] := by
  cases xs with
  | nil => rfl
  | cons x =>
    have hlen := FrameHeader.length_encode x.1
    refine if_neg ?_
    rw [storedBytes, length_append, hlen, frameHeaderSize]
    omega

variable (crc32) in
theorem wholeItems_log (n : ℕ) (log : List (LogEntry Schema Batch)) :
    wholeItems storedBytes n (log.map (stored crc32 ipc)) =
      (completeBefore ipc n log).map (stored crc32 ipc) := by
  induction log generalizing n with
  | nil => rfl
  | cons e log ih =>
    rw [map_cons, wholeItems, completeBefore, length_storedBytes, ih]
    split_ifs <;> rfl

theorem filterMap_frameEvent?_log {log : List (LogEntry Schema Batch)} {n : ℕ}
    (hacc : ∀ e ∈ log, e.Accepted ipc) (hseq : Sequenced 1 log) :
    ((completeBefore ipc n log).map (stored crc32 ipc)).filterMap (frameEvent? ipc) =
      logEvents (completeBefore ipc n log) := by
  obtain ⟨_, hrest⟩ := completeBefore_isPrefix ipc n log
  rw [← hrest] at hseq
  exact (numbered_log crc32 (fun e he ↦ hacc e (hrest ▸ mem_append_left _ he))
    (sequenced_append.mp hseq).1).events_eq.symm

end WalFrameCursor

namespace LoggedFile

open WalFrameCursor

variable {crc32 ipc} {f : LoggedFile Schema Batch}

variable (crc32 ipc) in
/-- A cursor that is opened on the first part of the file, and asked until there is none each time
the file has grown, has returned the batches that are completely there, each once and in order; and
it is finished only when the footer is there. -/
def FollowedExactly (f : LoggedFile Schema Batch) : Prop :=
  ∀ (first : ℕ) (cuts : List ℕ) (mid : ℕ), segmentHeaderSize ≤ first →
    (first :: cuts).Pairwise (· ≤ ·) → (∀ n ∈ first :: cuts, n ≤ (f.file crc32 ipc).bytes.length) →
    ∃ c₀ c : WalFrameCursor Schema,
      openFile (some ((f.file crc32 ipc).bytes.take first)) mid = .ok (some c₀) ∧
      Follows crc32 ipc (f.file crc32 ipc).bytes c₀ (first :: cuts)
        (logEvents (completeBefore ipc
          ((first :: cuts).getLast (List.cons_ne_nil _ _) - segmentHeaderSize) f.log)) c ∧
      (c.finished = true →
        (first :: cuts).getLast (List.cons_ne_nil _ _) = (f.file crc32 ipc).bytes.length)

variable {footer : UInt64 × SegmentFooter}

variable (crc32) in
theorem bytes_eq_closedFile (hfoot : f.footer = some footer) :
    (f.file crc32 ipc).bytes = closedFile (newV1 f.memtableId f.now).encode
      (f.log.map (stored crc32 ipc))
      ((footerFrame footer).header crc32, (footerFrame footer).payload) := by
  rw [file, frames, hfoot, closedFile, flatMap_append, flatMap_append, flatMap_map, flatMap_map]
  rfl

variable (crc32 ipc) in
theorem bytes_eq_logFile (hfoot : f.footer = some footer) :
    (f.file crc32 ipc).bytes = logFile crc32 ipc f.log ((footerFrame footer).encode crc32)
      f.memtableId f.now := by
  rw [file, frames, hfoot, logFile, flatMap_append, flatMap_map, Option.map_some,
    Option.toList_some, flatMap_singleton]
  rfl

theorem followedExactly_of_readable (hfoot : f.footer = some footer)
    (hacc : ∀ e ∈ f.log, e.Accepted ipc) (hseq : Sequenced 1 f.log)
    (hread : ∀ e ∈ f.log, e.Readable ipc) (crc32 : Bytes → UInt32) :
    f.FollowedExactly crc32 ipc := by
  intro first cuts mid hfst hcuts hle
  have hhead := length_encode (newV1 f.memtableId f.now)
  have hnum := numbered_log crc32 hacc hseq
  have hstore : ∀ x ∈ f.log.map (stored crc32 ipc) ++
      [((footerFrame footer).header crc32, (footerFrame footer).payload)], Stored crc32 x := by
    refine forall_mem_append.mpr ⟨forall_mem_map.mpr fun e he ↦ ?_, forall_mem_singleton.mpr ?_⟩
    · exact (hacc e he).wellFormed.stored (hread e he)
    · exact (wellFormed_footerFrame footer).1.stored (wellFormed_footerFrame footer).2
  rw [bytes_eq_closedFile crc32 hfoot] at hle ⊢
  have hst : CaughtUp (newV1 f.memtableId f.now).encode
      (f.log.map (stored crc32 ipc))
      ((footerFrame footer).header crc32, (footerFrame footer).payload)
      (⟨mid, none, segmentHeaderSize, false⟩ : WalFrameCursor Schema) segmentHeaderSize := by
    refine .reading rfl ?_ ?_
    · rw [hhead, Nat.sub_self, wholeItems_zero]
      rfl
    · rw [length_closedFile, hhead, storedBytes, length_append, FrameHeader.length_encode,
        frameHeaderSize]
      omega
  have hall : ∀ n ∈ first :: cuts, segmentHeaderSize ≤ n :=
    forall_mem_cons.mpr ⟨hfst, fun n hn ↦ hfst.trans (rel_of_pairwise_cons hcuts hn)⟩
  obtain ⟨_, c, hfol, hc, hnew⟩ := hst.follow hstore hnum rfl hhead.le
    (pairwise_cons.mpr ⟨hall, hcuts⟩)
  rw [getLast_cons (cons_ne_nil _ _)] at hc hnew
  rw [hhead, Nat.sub_self, wholeItems_zero, filterMap_nil, nil_append, wholeItems_log,
    filterMap_frameEvent?_log hacc hseq] at hnew
  refine ⟨⟨mid, none, segmentHeaderSize, false⟩, c, ?_, hnew ▸ hfol, fun hfin ↦ ?_⟩
  · rw [closedFile, take_append, hhead, take_of_length_le (hhead.trans_le hfst)]
    exact openFile_eq f.memtableId f.now mid _
  · refine (hle _ (getLast_mem _)).antisymm ?_
    cases hc with
    | reading hopen => exact absurd hfin (hopen ▸ Bool.false_ne_true)
    | finished _ hle => exact hle

/-- An unreadable batch is not returned, under a CRC that tells it from what is read of it. -/
theorem not_followedExactly_of_unreadable (hfoot : f.footer = some footer)
    (hacc : ∀ e ∈ f.log, e.Accepted ipc) (hseq : Sequenced 1 f.log)
    (hsch : ∀ s, .schema s ∈ f.log → (schema s : LogEntry Schema Batch).Readable ipc)
    (hread : ¬ ∀ e ∈ f.log, e.Readable ipc) : ¬ f.FollowedExactly (markCrc []) ipc := by
  intro hex
  obtain ⟨_, e, _, hlog, hpre, he⟩ := exists_first_not hread
  have hhead := length_encode (newV1 f.memtableId f.now)
  have hbs := bytes_eq_logFile (markCrc []) ipc hfoot
  have hlen : (f.file (markCrc []) ipc).bytes.length = segmentHeaderSize +
      ((f.log.map (size ipc)).sum + (footerFrame footer).size) := by
    rw [hbs, logFile, length_append, length_append, hhead, length_encodeLog, Frame.length_encode]
  obtain ⟨_, c, hopen, hfol, -⟩ := hex (f.file (markCrc []) ipc).bytes.length [] 0
    (by omega) (pairwise_singleton _ _) (forall_mem_singleton.mpr le_rfl)
  rw [take_length, hbs, logFile, openFile_eq] at hopen
  obtain rfl := Option.some.inj (Except.ok.inj hopen)
  have hcom : completeBefore ipc
      ((f.file (markCrc []) ipc).bytes.length - segmentHeaderSize) f.log = f.log :=
    completeBefore_eq_self (by omega)
  have hpoll := hfol.polls
  rw [getLast_singleton, hcom, take_length] at hpoll
  -- the cursor itself stops in front of the entry
  have hfr := segmentFrames_unreadable [] (hlog ▸ hacc) hpre he
    ((footerFrame footer).encode (markCrc []))
  rw [← hlog] at hfr
  have hdrop : (f.file (markCrc []) ipc).bytes.drop segmentHeaderSize =
      encodeLog (markCrc []) ipc f.log ++ (footerFrame footer).encode (markCrc []) := by
    rw [hbs, logFile, drop_left' hhead]
  rw [← hdrop] at hfr
  rw [hlog, sequenced_append] at hseq
  have hnum := numbered_log (markCrc [])
    (fun e' he' ↦ hacc e' (hlog ▸ mem_append_left _ he')) hseq.1
  obtain ⟨c', -, hopen', hrest, hstops⟩ := polls_numbered hnum hfr
    (c := ⟨0, none, segmentHeaderSize, false⟩) rfl (append_nil _).symm
  have hevs := ((hstops [] c' (polls_nil hopen' hrest)).unique hpoll).1
  rw [append_nil, hlog, logEvents, logEvents, filterMap_append] at hevs
  cases e with
  | schema s => exact he (hsch s (hlog ▸ mem_append_right _ mem_cons_self))
  | memtableEnd => exact he (by simp [LogEntry.Readable, frame])
  | batch => simp [event?] at hevs

variable (ipc) in
/-- **Following a segment is exact** exactly if every payload has a length that fits the 32 bits its
block length is computed from. -/
theorem followed_exactly_iff (f : LoggedFile Schema Batch) (footer : UInt64 × SegmentFooter)
    (hfooter : f.footer = some footer) (hacc : ∀ e ∈ f.log, e.Accepted ipc)
    (hseq : Sequenced 1 f.log)
    (hschema : ∀ s, .schema s ∈ f.log → (schema s : LogEntry Schema Batch).Readable ipc) :
    (∀ crc32, f.FollowedExactly crc32 ipc) ↔
      ∀ b ∈ logBatches f.log, (ipc.encodeBatch b).length < 2 ^ 32 := by
  rw [← readable_iff_batches hschema]
  refine ⟨fun h ↦ ?_, fun h ↦ followedExactly_of_readable hfooter hacc hseq h⟩
  by_contra hread
  exact not_followedExactly_of_unreadable hfooter hacc hseq hschema hread (h _)

/-- Two batches around a marker. -/
def sampleSegment : LoggedFile Unit UInt8 where
  fileId := 1
  path := "1.wal"
  memtableId := 7
  now := 0
  log := [.schema (), .batch 1 5 10, .memtableEnd 2 5 7 8, .batch 3 6 11]
  footer := some (4, ⟨2, 5, 0⟩)

theorem sampleSegment_followed : sampleSegment.FollowedExactly lengthCrc byteIpc :=
  (followed_exactly_iff byteIpc sampleSegment (4, ⟨2, 5, 0⟩) rfl (by decide)
    ⟨rfl, rfl, rfl, trivial⟩ fun _ _ ↦ show 1 < 2 ^ 32 by decide).mpr
    (by decide +kernel) lengthCrc

end LoggedFile

/-- A codec that writes a batch as so many zeros. -/
def zerosIpc : ArrowIpc Unit ℕ where
  encodeSchema _ := [0]
  decodeSchema _ := .ok ()
  encodeBatch n := List.replicate n 0
  decodeBatch payload := .ok payload.length
  arrayMemorySize n := n
  decodeSchema_encodeSchema := byteIpc.decodeSchema_encodeSchema
  decodeBatch_encodeBatch _ := by rw [length_replicate]

theorem zerosIpc_blockLen (sequence : ℕ) (lsn : UInt64) (n : ℕ) :
    ((batch sequence lsn n).frame zerosIpc).blockLen = frameHeaderSize + n % 2 ^ 32 := by
  change frameHeaderSize + (List.replicate n (0 : UInt8)).length % 2 ^ 32 = _
  rw [length_replicate]

theorem zerosIpc_readable_iff (sequence : ℕ) (lsn : UInt64) (n : ℕ) :
    (batch sequence lsn n).Readable zerosIpc ↔ n < 2 ^ 32 := by
  change (List.replicate n (0 : UInt8)).length < 2 ^ 32 ↔ _
  rw [length_replicate]

namespace LoggedFile

/-- A batch of `2 ^ 32` bytes, which the writer takes for an empty one. -/
def longSegment : LoggedFile Unit ℕ where
  fileId := 1
  path := "1.wal"
  memtableId := 7
  now := 0
  log := [.schema (), .batch 1 5 (2 ^ 32)]
  footer := some (2, ⟨1, 3, 0⟩)

theorem longSegment_not_followed : ¬ longSegment.FollowedExactly (markCrc []) zerosIpc := by
  refine not_followedExactly_of_unreadable rfl ?_ ⟨rfl, trivial⟩ ?_ fun h ↦ ?_
  · refine forall_mem_cons.mpr ⟨by decide, forall_mem_singleton.mpr ⟨?_, by decide⟩⟩
    rw [zerosIpc_blockLen]
    decide
  · exact fun _ _ ↦ show 1 < 2 ^ 32 by decide
  · have hbat := h (.batch 1 5 (2 ^ 32)) (mem_cons_of_mem _ mem_cons_self)
    rw [zerosIpc_readable_iff] at hbat
    exact lt_irrefl _ hbat

end LoggedFile

end MonoTS
