import MonoTS.Wal.Segment

/-!
# Frames in a row

What the readers of a segment make of its frames does not depend on who wrote them. A frame stands
in a file as its header and its payload (`storedBytes`), and it is `Stored` if a reader finds it
there. `Numbered` says that the frames of a row carry consecutive numbers, the skipped ones
included, and that their payloads can be decoded; it also names the number behind the row and the
batches in it. Each reader has one lemma here, by induction on the row.
-/

open List

namespace MonoTS

open LittleEndian ByteStream

variable {Schema Batch : Type*} {crc32 : Bytes → UInt32} {ipc : ArrowIpc Schema Batch}

/-! ## Stored frames -/

variable (x : FrameHeader × Bytes)

/-- A frame in a file. -/
def storedBytes : Bytes := x.1.encode ++ x.2

variable (crc32) in
/-- A reader that comes to the frame returns it. -/
def Stored : Prop :=
  ∀ rest, readFrame crc32 (storedBytes x ++ rest) = .item x rest

/-- A frame is found again if its header can be read and speaks of its payload. -/
theorem stored_of_widths {h : FrameHeader} {payload : Bytes} (hw : h.Widths)
    (htype : (if unknownBits h.flags frameKnownFlags ≠ 0 then .unknown h.recordType.asU16
      else RecordType.fromU16 h.recordType.asU16) = h.recordType)
    (hlen : h.bodyLen = payload.length) (hcrc : h.crc32 = (crc32 payload).toNat) :
    Stored crc32 (h, payload) := by
  intro rest
  rw [readFrame, storedBytes, append_assoc, FrameHeader.decode_encode_of_widths hw, htype]
  simp only [hlen, length_append, take_left, drop_left]
  rw [if_neg (by omega), if_neg (not_not.mpr hcrc.symm)]

theorem Frame.WellFormed.stored {f : Frame} (hf : f.WellFormed)
    (hlen : f.payload.length < 2 ^ 32) : Stored crc32 (f.header crc32, f.payload) :=
  readFrame_encode crc32 hf hlen

theorem Stored.length_eq {x : FrameHeader × Bytes} (h : Stored crc32 x) :
    (storedBytes x).length = frameHeaderSize + x.1.bodyLen := by
  have hread := h []
  rw [append_nil] at hread
  obtain ⟨hd, hbody, -, -, hrest⟩ := readFrame_eq_item crc32 hread
  have hlen := (FrameHeader.decode_eq_some hd).1
  have hrest := congrArg List.length hrest
  rw [length_drop, length_nil] at hrest
  rw [length_drop] at hbody hrest
  omega

variable {xs : List (FrameHeader × Bytes)}

variable (crc32) in
theorem segmentFrames_stored (h : ∀ x ∈ xs, Stored crc32 x) (tail : Bytes) :
    ∃ frames : List ((FrameHeader × Bytes) × Bytes), frames.map Prod.fst = xs ∧
      segmentFrames crc32 (xs.flatMap storedBytes ++ tail) =
        (frames ++ (segmentFrames crc32 tail).1, (segmentFrames crc32 tail).2) := by
  obtain ⟨frames, hits, hfr⟩ := items_append (consuming_readFrame crc32) h tail
  rw [map_id'] at hfr
  exact ⟨frames, hfr, hits⟩

variable (crc32) in
/-- Of frames that were cut, readers find those that are complete. -/
theorem segmentFrames_take (h : ∀ x ∈ xs, Stored crc32 x) (n : ℕ) :
    (segmentFrames crc32 ((xs.flatMap storedBytes).take n)).1.map Prod.fst =
      wholeItems storedBytes n xs := by
  have htake := items_take (consuming_readFrame crc32)
    (fun _ _ _ hr tail ↦ readFrame_append crc32 hr tail) h n
  rwa [map_id'] at htake

/-- A segment header, frames, and a footer. -/
def closedFile (head : Bytes) (body : List (FrameHeader × Bytes)) (footer : FrameHeader × Bytes) :
    Bytes :=
  head ++ (body ++ [footer]).flatMap storedBytes

theorem length_closedFile (head : Bytes) (body : List (FrameHeader × Bytes))
    (footer : FrameHeader × Bytes) : (closedFile head body footer).length =
      head.length + ((body.flatMap storedBytes).length + (storedBytes footer).length) := by
  rw [closedFile, length_append, flatMap_append, length_append, flatMap_singleton]

/-! ## Numbered frames -/

/-- A batch as `WalFrameCursor` returns it. -/
structure WalFrameEvent (Batch : Type*) where
  lsn : ℕ
  sequence : ℕ
  batch : Batch

/-- The readers step over frames of the type. -/
def RecordType.Skipped : RecordType → Prop
  | .memTableEnd | .unknown _ => True
  | .schema | .batch | .footer => False

theorem RecordType.Skipped.cases {t : RecordType} (h : t.Skipped) :
    t = .memTableEnd ∨ ∃ v, t = .unknown v := by
  cases t with
  | memTableEnd => exact .inl rfl
  | unknown v => exact .inr ⟨v, rfl⟩
  | _ => exact h.elim

variable (ipc) in
/-- The frames are numbered from the first number on, the second number is the one behind them, and
the batches among them are those of the list. A schema has no number of its own. -/
inductive Numbered :
    ℕ → List (FrameHeader × Bytes) → ℕ → List (WalFrameEvent Batch) → Prop
  | nil (next : ℕ) : Numbered next [] next []
  | schema {next behind xs events} {h : FrameHeader} {payload s} (htype : h.recordType = .schema)
    (hsequence : h.sequence = schemaFrameSequence)
    (hformat : h.payloadFormat = payloadFormatArrowIpc) (hdecode : ipc.decodeSchema payload = .ok s)
    (hxs : Numbered next xs behind events) :
    Numbered next ((h, payload) :: xs) behind events
  | batch {next behind xs events} {h : FrameHeader} {payload b} (htype : h.recordType = .batch)
    (hsequence : h.sequence = next) (hformat : h.payloadFormat = payloadFormatArrowIpc)
    (hdecode : ipc.decodeBatch payload = .ok b) (hxs : Numbered (next + 1) xs behind events) :
    Numbered next ((h, payload) :: xs) behind (⟨h.lsn, next, b⟩ :: events)
  | skipped {next behind xs events} {h : FrameHeader} {payload} (htype : h.recordType.Skipped)
    (hsequence : h.sequence = next) (hlt : next + 1 < 2 ^ 64)
    (hxs : Numbered (next + 1) xs behind events) :
    Numbered next ((h, payload) :: xs) behind events

variable {next behind : ℕ} {xs : List (FrameHeader × Bytes)} {events : List (WalFrameEvent Batch)}
  {ys : List (FrameHeader × Bytes)}

theorem Numbered.append {behind' : ℕ} {events' : List (WalFrameEvent Batch)}
    (hxs : Numbered ipc next xs behind events) (hys : Numbered ipc behind ys behind' events') :
    Numbered ipc next (xs ++ ys) behind' (events ++ events') := by
  induction hxs with
  | nil => exact hys
  | schema htype hseq hform hdec _ ih =>
    exact .schema htype hseq hform hdec (ih hys)
  | batch htype hseq hform hdec _ ih =>
    exact .batch htype hseq hform hdec (ih hys)
  | skipped htype hseq hlt _ ih => exact .skipped htype hseq hlt (ih hys)

theorem Numbered.of_append (h : Numbered ipc next (xs ++ ys) behind events) :
    ∃ middle events₁ events₂, Numbered ipc next xs middle events₁ ∧
      Numbered ipc middle ys behind events₂ := by
  induction xs generalizing next events with
  | nil => exact ⟨next, [], events, .nil next, h⟩
  | cons x xs ih =>
    cases h with
    | schema htype hseq hform hdec hxs =>
      obtain ⟨middle, events₁, events₂, h₁, h₂⟩ := ih hxs
      exact ⟨middle, events₁, events₂, .schema htype hseq hform hdec h₁, h₂⟩
    | batch htype hseq hform hdec hxs =>
      obtain ⟨middle, events₁, events₂, h₁, h₂⟩ := ih hxs
      exact ⟨middle, _, events₂, .batch htype hseq hform hdec h₁, h₂⟩
    | skipped htype hseq hlt hxs =>
      obtain ⟨middle, events₁, events₂, h₁, h₂⟩ := ih hxs
      exact ⟨middle, events₁, events₂, .skipped htype hseq hlt h₁, h₂⟩

variable (ipc) in
/-- The batch of a frame. -/
def frameEvent? (x : FrameHeader × Bytes) : Option (WalFrameEvent Batch) :=
  if x.1.recordType = .batch then
    (ipc.decodeBatch x.2).toOption.map fun b ↦ ⟨x.1.lsn, x.1.sequence, b⟩
  else none

theorem Numbered.events_eq (h : Numbered ipc next xs behind events) :
    events = xs.filterMap (frameEvent? ipc) := by
  induction h with
  | nil => rfl
  | @schema _ _ _ _ h payload _ htype _ _ _ _ ih =>
    have hnone : frameEvent? ipc (h, payload) = none := if_neg (by rw [htype]; exact nofun)
    rw [filterMap_cons_none hnone, ← ih]
  | @batch _ _ _ _ h payload b htype hseq _ hdec _ ih =>
    have hsome : frameEvent? ipc (h, payload) = some ⟨h.lsn, h.sequence, b⟩ := by
      rw [frameEvent?, if_pos htype, hdec]
      rfl
    rw [filterMap_cons_some hsome, ← ih, hseq]
  | @skipped _ _ _ _ h payload htype _ _ _ ih =>
    have hnone : frameEvent? ipc (h, payload) = none :=
      if_neg fun hbat ↦ by rw [hbat] at htype; exact htype
    rw [filterMap_cons_none hnone, ← ih]

/-! ## The readers on numbered frames -/

variable {frames : List ((FrameHeader × Bytes) × Bytes)}
  (rest : List ((FrameHeader × Bytes) × Bytes))

theorem replayFrames_numbered (path : String) (allowPartial : Bool) (stop : Option FrameStop)
    (batches : List Batch) (h : Numbered ipc next xs behind events)
    (hfr : frames.map Prod.fst = xs) :
    replayFrames ipc path allowPartial stop (frames ++ rest) next batches =
      replayFrames ipc path allowPartial stop rest behind
        (batches ++ events.map WalFrameEvent.batch) := by
  induction h generalizing frames batches with
  | nil => rw [map_eq_nil_iff.mp hfr, map_nil, append_nil, nil_append]
  | schema htype hseq hform hdec _ ih =>
    obtain ⟨⟨_, _⟩, frames, rfl, rfl, hrest⟩ := map_eq_cons_iff.mp hfr
    simp only [cons_append, replayFrames, htype, hseq, hform, hdec, ne_eq,
      not_true_eq_false, if_false]
    exact ih batches hrest
  | @batch _ _ _ _ _ _ b htype hseq hform hdec _ ih =>
    obtain ⟨⟨_, _⟩, frames, rfl, rfl, hrest⟩ := map_eq_cons_iff.mp hfr
    simp only [cons_append, replayFrames, htype, hseq, hform, hdec, ne_eq,
      not_true_eq_false, if_false]
    rw [ih (batches ++ [b]) hrest, append_assoc]
    rfl
  | @skipped _ _ _ _ h _ htype hseq hlt _ ih =>
    obtain ⟨⟨_, _⟩, _, rfl, rfl, hrest⟩ := map_eq_cons_iff.mp hfr
    rw [cons_append, replayFrames]
    rcases htype.cases with hrt | ⟨_, hrt⟩
    all_goals
      simp only [hrt, hseq, max_saturatingAdd_one hlt]
      exact ih batches hrest

variable (ipc) in
/-- The bytes that the writer and the scan account for these batches. -/
def eventBytes (events : List (WalFrameEvent Batch)) : ℕ :=
  (events.map fun event ↦ max (ipc.arrayMemorySize event.batch) 1).sum

theorem scanFrames_numbered (path : String) (tail : SegmentTailState)
    (h : Numbered ipc tail.nextBatchSequence xs behind events) (hfr : frames.map Prod.fst = xs) :
    scanFrames ipc path (frames ++ rest) tail =
      scanFrames ipc path rest
        { tail with
          batchesWritten := tail.batchesWritten + events.length
          nextBatchSequence := behind
          bytesWritten := tail.bytesWritten + eventBytes ipc events
          framesWritten := tail.framesWritten + xs.length } := by
  generalize hnext : tail.nextBatchSequence = next at h
  induction h generalizing frames tail with
  | nil =>
    rw [map_eq_nil_iff.mp hfr, ← hnext]
    rfl
  | schema htype hseq _ _ _ ih =>
    obtain ⟨⟨_, _⟩, frames, rfl, rfl, hrest⟩ := map_eq_cons_iff.mp hfr
    simp only [cons_append, scanFrames, htype, hseq, ne_eq, not_true_eq_false, if_false]
    rw [ih { tail with framesWritten := tail.framesWritten + 1 } hrest hnext]
    simp only [length_cons, Nat.add_assoc, Nat.add_comm 1]
  | @batch _ _ _ _ _ payload b htype hseq _ hdec _ ih =>
    obtain ⟨⟨_, _⟩, frames, rfl, rfl, hrest⟩ := map_eq_cons_iff.mp hfr
    have hbs : batchBytes ipc payload = max (ipc.arrayMemorySize b) 1 := by
      rw [batchBytes, hdec]
    simp only [cons_append, scanFrames, htype, hseq, hnext, ne_eq, not_true_eq_false, if_false, hbs]
    rw [ih _ hrest rfl]
    simp only [length_cons, eventBytes, map_cons, sum_cons, Nat.add_assoc, Nat.add_comm 1]
  | @skipped next _ _ _ h payload htype hseq hlt _ ih =>
    obtain ⟨⟨_, behind⟩, frames, rfl, rfl, hrest⟩ := map_eq_cons_iff.mp hfr
    have hstep : scanFrames ipc path ((((h, payload), behind) :: frames) ++ rest) tail =
        scanFrames ipc path (frames ++ rest)
          { tail with
            framesWritten := tail.framesWritten + 1
            nextBatchSequence := next + 1 } := by
      rw [cons_append, scanFrames]
      rcases htype.cases with hrt | ⟨_, hrt⟩
      all_goals simp only [hrt, hseq, hnext, max_saturatingAdd_one hlt]
    rw [hstep, ih { tail with
      framesWritten := tail.framesWritten + 1
      nextBatchSequence := next + 1 } hrest rfl]
    simp only [length_cons, Nat.add_assoc, Nat.add_comm 1]

end MonoTS
