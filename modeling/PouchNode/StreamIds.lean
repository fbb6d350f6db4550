import PouchNode.Lib.Machine
import PouchNode.Stream

/-! Stream ids. There are 31 of them and they are drawn in turn, while 126 streams may be
open: an id is given out again after 31 draws, whether its last owner is closed or not. -/
namespace Pouch
open Machine

abbrev writersFinal (cfg : Config) : Writers → List WritersOp → Writers := final (writersStep cfg)

def streamIdAt (k : Nat) : UInt8 := UInt8.ofNat (k % 31 + 1)
def CounterAt (k streamId : Nat) : Prop :=
  streamId % 32 = if k = 0 then 1 else ((k - 1) % 31 + 2) % 32

theorem toNat_mask (n : Nat) : (UInt8.ofNat n &&& blockIdMask).toNat = n % 32 := by
  have hand : n % 256 &&& 31 = n % 256 % 32 := Nat.and_two_pow_sub_one_eq_mod (n % 256) 5
  rw [UInt8.toNat_and, UInt8.toNat_ofNat', blockIdMask]
  exact hand.trans (Nat.mod_mod_of_dvd n (by decide))

theorem toNat_streamIdAt (k : Nat) : (streamIdAt k).toNat = k % 31 + 1 := by
  rw [streamIdAt, UInt8.toNat_ofNat']
  omega

theorem streamIdAt_eq_iff (h k : Nat) : streamIdAt h = streamIdAt k ↔ h % 31 = k % 31 := by
  rw [← UInt8.toNat_inj, toNat_streamIdAt, toNat_streamIdAt]
  omega

theorem streamIdAt_ne_zero (k : Nat) : streamIdAt k ≠ 0 := by
  intro h
  have hnat := toNat_streamIdAt k
  rw [h] at hnat
  cases hnat

/-- The counter skips 0, so the ids go round with period 31. -/
theorem newStreamId_eq {k streamId : Nat} (h : CounterAt k streamId) :
    (newStreamId streamId).1 = streamIdAt k ∧ CounterAt (k + 1) (newStreamId streamId).2 := by
  have hmask := toNat_mask streamId
  have hnext := toNat_mask (streamId + 1)
  unfold CounterAt at h ⊢
  by_cases hz : UInt8.ofNat streamId &&& blockIdMask = 0
  · have hzero : streamId % 32 = 0 := by rw [← hmask, hz]; rfl
    simp only [newStreamId, hz, if_true]
    constructor
    · rw [← UInt8.toNat_inj, hnext, toNat_streamIdAt]
      split at h <;> omega
    · split at h <;> simp <;> omega
  · have hpos : streamId % 32 ≠ 0 := by
      intro hzero
      exact hz (UInt8.toNat_inj.mp (by rw [hmask, hzero]; rfl))
    simp only [newStreamId, hz, if_false]
    constructor
    · rw [← UInt8.toNat_inj, hmask, toNat_streamIdAt]
      split at h <;> omega
    · split at h <;> simp <;> omega

structure StreamsInv (s : Streams) : Prop where
  counter : CounterAt s.draws s.streamId
  drawn : ∀ h stream, s.live.lookup h = some stream → h < s.draws ∧ stream.id = streamIdAt h

theorem streamsInv_boot : StreamsInv .boot := by
  refine ⟨rfl, ?_⟩
  intro h stream hs
  simp [Streams.boot] at hs

section
variable {live : AList fun _ : Nat => PouchStream} {P : Nat → PouchStream → Prop}

theorem forall_lookup_insert {i : Nat} {new : PouchStream} (hnew : P i new)
    (h : ∀ k stream, live.lookup k = some stream → P k stream) :
    ∀ k stream, (live.insert i new).lookup k = some stream → P k stream := by
  intro k stream hk
  by_cases he : k = i
  · subst he
    rw [AList.lookup_insert, Option.some.injEq] at hk
    rwa [← hk]
  · rw [AList.lookup_insert_ne he] at hk
    exact h k stream hk

theorem forall_lookup_erase {i : Nat} (h : ∀ k stream, live.lookup k = some stream → P k stream) :
    ∀ k stream, (live.erase i).lookup k = some stream → P k stream := by
  intro k stream hk
  by_cases he : k = i
  · subst he
    rw [AList.lookup_erase] at hk
    cases hk
  · rw [AList.lookup_erase_ne he] at hk
    exact h k stream hk

end

section
variable {s : Streams}

def Streams.Opens (s : Streams) (malloc alloc : Bool) : Prop :=
  s.openStreams < pouchStreamsMax ∧ malloc = true ∧ alloc = true

def openedStream (sessionId : UInt32) (path : CString) (contentType : UInt16) (k : Nat) :
    PouchStream :=
  ⟨streamIdAt k, openBlock (streamIdAt k ||| firstDataMask) (streamHeader contentType path), 0,
    sessionId⟩

/-- Everything an open can do: nothing, use up an id, or add the next stream. -/
theorem pouchUplinkStreamOpen_cases (sessionId : UInt32) (path : CString) (contentType : UInt16)
    (malloc alloc : Bool) (h : StreamsInv s) :
    (¬ s.Opens malloc alloc ∧
      ∃ t, pouchUplinkStreamOpen sessionId path contentType malloc alloc s = (none, t) ∧
        StreamsInv t ∧ t.live = s.live) ∨
    (s.Opens malloc alloc ∧
      ∃ t, pouchUplinkStreamOpen sessionId path contentType malloc alloc s = (some s.draws, t) ∧
        StreamsInv t ∧ t.live = s.live.insert s.draws
          (openedStream sessionId path contentType s.draws)) := by
  obtain ⟨hid, hcounter⟩ := newStreamId_eq h.counter
  have hold : ∀ k stream, s.live.lookup k = some stream →
      k < s.draws + 1 ∧ stream.id = streamIdAt k := by
    intro k stream hk
    exact ⟨Nat.lt_succ_of_lt (h.drawn k stream hk).1, (h.drawn k stream hk).2⟩
  by_cases hmax : pouchStreamsMax ≤ s.openStreams
  · refine Or.inl ⟨fun ho => absurd ho.1 (by omega), s, ?_, h, rfl⟩
    simp [pouchUplinkStreamOpen, hmax]
  cases malloc with
  | false =>
    refine Or.inl ⟨fun ho => absurd ho.2.1 (by decide), s, ?_, h, rfl⟩
    simp [pouchUplinkStreamOpen, hmax]
  | true =>
    cases alloc with
    | false =>
      refine Or.inl ⟨fun ho => absurd ho.2.2 (by decide),
        { s with streamId := (newStreamId s.streamId).2, draws := s.draws + 1 }, ?_, ?_, rfl⟩
      · simp [pouchUplinkStreamOpen, hmax, blockAllocStream]
      · exact ⟨hcounter, hold⟩
    | true =>
      refine Or.inr ⟨⟨by omega, rfl, rfl⟩,
        ⟨(newStreamId s.streamId).2, s.openStreams + 1,
          s.live.insert s.draws (openedStream sessionId path contentType s.draws), s.draws + 1⟩,
        ?_, ?_, rfl⟩
      · simp only [pouchUplinkStreamOpen, hmax, if_false, Bool.not_true, Bool.false_eq_true,
          blockAllocStream, if_true, hid]
        rfl
      · exact ⟨hcounter, forall_lookup_insert ⟨Nat.lt_succ_self _, rfl⟩ hold⟩

end

section
variable {cfg : Config} {s : Writers}

def WritersOp.Opens (s : Writers) : WritersOp → Prop
  | .streamOpen _ _ malloc alloc => s.streams.Opens malloc alloc
  | _ => False

theorem pouchStreamWrite_id (sessionId : UInt32) (alloc : Nat → Bool) (stream : PouchStream)
    (data : Buf) : (pouchStreamWrite cfg sessionId alloc stream data).2.1.id = stream.id := by
  cases hv : pouchStreamIsValid sessionId stream with
  | false => simp [pouchStreamWrite, hv]
  | true => simp [pouchStreamWrite, hv]

theorem Writers.stream_some {h : Nat} : s.stream (some h) = s.streams.live.lookup h := rfl

/-- What an operation does to the set of open streams: it opens the next one, or the
streams afterwards are among those before, under the same ids. -/
theorem writersStep_streams (cfg : Config) (op : WritersOp) (h : StreamsInv s.streams) :
    StreamsInv (writersStep cfg s op).1.streams ∧
    ((op.Opens s ∧ ∀ k, k ∈ (writersStep cfg s op).1.streams.live ↔
        k = s.streams.draws ∨ k ∈ s.streams.live) ∨
      (¬ op.Opens s ∧ ∀ k ∈ (writersStep cfg s op).1.streams.live, k ∈ s.streams.live)) := by
  cases op with
  | streamOpen path contentType malloc alloc =>
    cases pouchUplinkStreamOpen_cases s.sessionId path contentType malloc alloc h with
    | inl hr =>
      obtain ⟨hno, t, he, hinv, hlive⟩ := hr
      simp only [writersStep, he]
      exact ⟨hinv, Or.inr ⟨hno, fun k hk => hlive ▸ hk⟩⟩
    | inr hr =>
      obtain ⟨hyes, t, he, hinv, hlive⟩ := hr
      simp only [writersStep, he]
      refine ⟨hinv, Or.inl ⟨hyes, ?_⟩⟩
      intro k
      rw [hlive, AList.mem_insert]
  | streamWrite handle data alloc =>
    cases streamWrite_cases cfg s handle data alloc with
    | inl hnone =>
      rw [hnone]
      exact ⟨h, Or.inr ⟨id, fun k hk => hk⟩⟩
    | inr hopen =>
      obtain ⟨i, stream, -, hi, he⟩ := hopen
      rw [he]
      have hmem : i ∈ s.streams.live := AList.lookup_isSome.mp (by simp [hi])
      have hdrawn := h.drawn i stream hi
      rw [← pouchStreamWrite_id s.sessionId alloc stream data] at hdrawn
      refine ⟨⟨h.counter, forall_lookup_insert hdrawn h.drawn⟩, Or.inr ⟨id, ?_⟩⟩
      intro k hk
      cases (AList.mem_insert _).mp hk with
      | inl he => rwa [he]
      | inr hold => exact hold
  | streamClose handle =>
    cases streamClose_cases cfg s handle with
    | inl hnone =>
      rw [hnone]
      exact ⟨h, Or.inr ⟨id, fun k hk => hk⟩⟩
    | inr hopen =>
      obtain ⟨i, stream, -, hi, he⟩ := hopen
      rw [he]
      exact ⟨⟨h.counter, forall_lookup_erase h.drawn⟩,
        Or.inr ⟨id, fun k hk => (AList.mem_erase.mp hk).2⟩⟩
  | entry op => exact ⟨h, Or.inr ⟨id, fun k hk => hk⟩⟩
  | nextSession => exact ⟨h, Or.inr ⟨id, fun k hk => hk⟩⟩

theorem writersFinal_streams (cfg : Config) (ops : List WritersOp) :
    StreamsInv (writersFinal cfg .boot ops).streams :=
  final_invariant (P := fun s => StreamsInv s.streams) (writersStep cfg)
    (fun _ op h => (writersStep_streams _ op h).1) .boot ops streamsInv_boot

end

structure IdsDistinct (s : Writers) : Prop where
  ne_zero : ∀ h stream, s.streams.live.lookup h = some stream → stream.id ≠ 0
  distinct : ∀ h k streamH streamK, s.streams.live.lookup h = some streamH →
    s.streams.live.lookup k = some streamK → h ≠ k → streamH.id ≠ streamK.id

def DrawsApart (s : Writers) : Prop :=
  ∀ h k, h ∈ s.streams.live → k ∈ s.streams.live → h ≠ k → h % 31 ≠ k % 31

theorem idsDistinct_iff {s : Writers} (hinv : StreamsInv s.streams) :
    IdsDistinct s ↔ DrawsApart s := by
  constructor
  · intro hids h k hh hk hne hmod
    obtain ⟨streamH, hsh⟩ := Option.isSome_iff_exists.mp (AList.lookup_isSome.mpr hh)
    obtain ⟨streamK, hsk⟩ := Option.isSome_iff_exists.mp (AList.lookup_isSome.mpr hk)
    apply hids.distinct h k streamH streamK hsh hsk hne
    rw [(hinv.drawn h _ hsh).2, (hinv.drawn k _ hsk).2]
    exact (streamIdAt_eq_iff h k).mpr hmod
  · intro hap
    constructor
    · intro h stream hs
      rw [(hinv.drawn h _ hs).2]
      exact streamIdAt_ne_zero h
    · intro h k streamH streamK hsh hsk hne hid
      rw [(hinv.drawn h _ hsh).2, (hinv.drawn k _ hsk).2, streamIdAt_eq_iff] at hid
      exact hap h k (AList.lookup_isSome.mp (by simp [hsh]))
        (AList.lookup_isSome.mp (by simp [hsk])) hne hid

def OpensApart (cfg : Config) (ops : List WritersOp) : Prop :=
  ∀ u op v, ops = u++op :: v → op.Opens (writersFinal cfg .boot u) →
    ∀ h ∈ (writersFinal cfg .boot u).streams.live,
      h % 31 ≠ (writersFinal cfg .boot u).streams.draws % 31

/-- A step keeps the open streams apart exactly if it opens none beside one that was drawn a
multiple of 31 draws before. -/
theorem drawsApart_step {cfg : Config} {s : Writers} (op : WritersOp) (hinv : StreamsInv s.streams)
    (h : DrawsApart s) :
    DrawsApart (writersStep cfg s op).1 ↔
      (op.Opens s → ∀ k ∈ s.streams.live, k % 31 ≠ s.streams.draws % 31) := by
  cases (writersStep_streams cfg op hinv).2 with
  | inr hr =>
    constructor
    · exact fun _ hop => absurd hop hr.1
    · exact fun _ i k hi hk => h i k (hr.2 i hi) (hr.2 k hk)
  | inl hr =>
    obtain ⟨hop, hlive⟩ := hr
    constructor
    · intro hnext _ k hk hmod
      have hlt : k < s.streams.draws := by
        obtain ⟨stream, hs⟩ := Option.isSome_iff_exists.mp (AList.lookup_isSome.mpr hk)
        exact (hinv.drawn k stream hs).1
      exact hnext k _ ((hlive k).mpr (Or.inr hk)) ((hlive _).mpr (Or.inl rfl)) hlt.ne hmod
    · intro hnew i k hi hk hne hmod
      cases (hlive i).mp hi with
      | inl hi' =>
        cases (hlive k).mp hk with
        | inl hk' => exact hne (hi'.trans hk'.symm)
        | inr hk' => exact hnew hop k hk' (hi' ▸ hmod.symm)
      | inr hi' =>
        cases (hlive k).mp hk with
        | inl hk' => exact hnew hop i hi' (hk' ▸ hmod)
        | inr hk' => exact h i k hi' hk' hne hmod

theorem drawsApart_boot : DrawsApart .boot := by
  intro i k hi
  simp [Writers.boot, Streams.boot] at hi

/-- In every state of a run the ids of the open streams are distinct and not zero, exactly
if no stream is ever opened while one is open that was drawn a multiple of 31 draws
before it. -/
theorem stream_ids_distinct_iff (cfg : Config) (ops : List WritersOp) :
    (∀ u v, ops = u++v → IdsDistinct (writersFinal cfg .boot u)) ↔ OpensApart cfg ops := by
  have hdraws := throughout_iff (writersStep cfg) (I := fun s => StreamsInv s.streams)
    (P := DrawsApart) (A := fun _ _ => True) (fun _ op _ h => (writersStep_streams cfg op h).1)
    (fun _ op _ hinv h => drawsApart_step op hinv h) .boot streamsInv_boot drawsApart_boot ops
    (fun _ _ _ _ => trivial)
  have hids : ∀ u, IdsDistinct (writersFinal cfg .boot u) ↔ DrawsApart (writersFinal cfg .boot u) :=
    fun u => idsDistinct_iff (writersFinal_streams cfg u)
  simp only [hids]
  exact hdraws

def openStream : WritersOp := .streamOpen pathA 0 true true
def smallConfig : Config := .ofLog 2 .none

/-- The 32nd stream gets the id of the first. -/
theorem stream_ids_repeat :
    ¬ IdsDistinct (writersFinal smallConfig .boot (List.replicate 32 openStream)) := by
  intro h
  have hfirst : ((writersFinal smallConfig .boot
      (List.replicate 32 openStream)).streams.live.lookup 0).map PouchStream.id = some 1 := by
    decide +kernel
  have hlast : ((writersFinal smallConfig .boot
      (List.replicate 32 openStream)).streams.live.lookup 31).map PouchStream.id = some 1 := by
    decide +kernel
  obtain ⟨first, hf, hfid⟩ := Option.map_eq_some_iff.mp hfirst
  obtain ⟨last, hl, hlid⟩ := Option.map_eq_some_iff.mp hlast
  exact h.distinct 0 31 first last hf hl (by decide) (hfid.trans hlid.symm)

end Pouch
