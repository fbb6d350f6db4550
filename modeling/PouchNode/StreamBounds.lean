import PouchNode.StreamRun

/-! The blocks of streams and the size of their buffers. Every write looks at the space that
is left, but for the first one: the stream header goes in unchecked. -/
namespace Pouch
open Machine

structure StreamsFit (cfg : Config) (s : Writers) : Prop where
  length : ∀ h stream, s.streams.live.lookup h = some stream →
    bufSizeGet stream.buf ≤ cfg.maxPlaintextBlockSize
  space : ∀ h stream, s.streams.live.lookup h = some stream →
    blockSpaceGet cfg stream.buf = cfg.maxPlaintextBlockSize - bufSizeGet stream.buf

def RefusesLong (cfg : Config) (s : Writers) (op : WritersOp) : Prop :=
  ¬ op.HeaderFits cfg → (writersStep cfg s op).2.result = .opened none

section
variable {cfg : Config} {s : Writers}

theorem WritersOk.streamsFit (h : WritersOk cfg s) : StreamsFit cfg s where
  length i stream hi := by
    obtain ⟨first, p, hbuf, hp⟩ := h.streams i stream hi
    rw [hbuf, bufSizeGet, length_openBlock, Config.maxPlaintextBlockSize]
    omega
  space i stream hi := by
    obtain ⟨first, p, hbuf, hp⟩ := h.streams i stream hi
    rw [hbuf, blockSpaceGet_openBlock _ hp, bufSizeGet, length_openBlock,
      Config.maxPlaintextBlockSize]
    omega

/-- A stream that has been opened fits exactly if its header does. -/
theorem openedStream_fits_iff (sessionId : UInt32) (path : CString) (contentType : UInt16)
    (k : Nat) :
    bufSizeGet (openedStream sessionId path contentType k).buf ≤ cfg.maxPlaintextBlockSize ↔
      3 + strlen path ≤ cfg.maxBlockPayloadSize := by
  rw [openedStream, bufSizeGet, length_openBlock, length_streamHeader,
    Config.maxPlaintextBlockSize]
  omega

theorem writersStep_fits_iff (h : WritersOk cfg s) (op : WritersOp) :
    StreamsFit cfg (writersStep cfg s op).1 ∧ RefusesLong cfg s op ↔
      (op.Opens s → op.HeaderFits cfg) := by
  constructor
  · rintro ⟨hfit, -⟩ hopens
    cases op with
    | streamOpen path contentType malloc alloc =>
      cases pouchUplinkStreamOpen_cases s.sessionId path contentType malloc alloc h.ids with
      | inl hr => exact absurd hopens hr.1
      | inr hr =>
        obtain ⟨-, t, he, -, hlive⟩ := hr
        have hnew := hfit.length s.streams.draws
          (openedStream s.sessionId path contentType s.streams.draws)
          (by simp [writersStep, he, hlive])
        exact (openedStream_fits_iff _ path contentType _).mp hnew
    | streamWrite handle data alloc => trivial
    | streamClose handle => trivial
    | entry op => trivial
    | nextSession => trivial
  · intro hop
    refine ⟨(writersStep_ok h op hop).1.streamsFit, fun hlong => ?_⟩
    cases op with
    | streamOpen path contentType malloc alloc =>
      cases pouchUplinkStreamOpen_cases s.sessionId path contentType malloc alloc h.ids with
      | inl hr =>
        obtain ⟨-, t, he, -⟩ := hr
        simp [writersStep, he]
      | inr hr => exact absurd (hop hr.1) hlong
    | streamWrite handle data alloc => exact absurd trivial hlong
    | streamClose handle => exact absurd trivial hlong
    | entry op => exact absurd trivial hlong
    | nextSession => exact absurd trivial hlong

end

/-- In every run of opens, writes and closes, every stream stays within its block and every
path that is too long is refused, exactly if no stream is opened whose header does not fit
into a block. -/
theorem stream_blocks_fit_iff (cfg : Config) (ops : List WritersOp) :
    (∀ u op v, ops = u++op :: v → StreamsFit cfg (writersFinal cfg .boot (u++[op])) ∧
      RefusesLong cfg (writersFinal cfg .boot u) op) ↔
    ∀ u op v, ops = u++op :: v → op.Opens (writersFinal cfg .boot u) → op.HeaderFits cfg := by
  have hsteps := steps_iff (writersStep cfg) (I := WritersOk cfg) (A := fun _ _ => True)
    (R := fun s op => StreamsFit cfg (writersStep cfg s op).1 ∧ RefusesLong cfg s op)
    (C := fun s op => op.Opens s → op.HeaderFits cfg)
    (fun s op _ h => writersStep_fits_iff h op)
    (fun s op _ h hr => (writersStep_ok h op ((writersStep_fits_iff h op).mp hr)).1)
    .boot writersOk_boot ops (fun _ _ _ _ => trivial)
  simpa only [← final_snoc] using hsteps

def longPath : CString := ⟨List.replicate 20 0x61, by decide⟩
def tinyConfig : Config := .ofLog 4 .none

/-- The stream is opened, its block has 26 bytes in an allocation of 19, and the space left
in it is almost all of the address space. -/
theorem long_path_overflows :
    (writersStep tinyConfig .boot (.streamOpen longPath 42 true true)).2.result =
      .opened (some 0) ∧
    ¬ StreamsFit tinyConfig (writersFinal tinyConfig .boot ([]++[.streamOpen longPath 42 true true])) ∧
    ((writersFinal tinyConfig .boot [.streamOpen longPath 42 true true]).stream (some 0)).map
      (fun stream => blockSpaceGet tinyConfig stream.buf) = some (2^32 - 7) := by
  refine ⟨rfl, fun h => ?_, by decide⟩
  exact absurd (h.length 0 _ rfl) (by decide)

end Pouch
