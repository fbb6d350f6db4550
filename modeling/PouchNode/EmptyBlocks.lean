import PouchNode.EntryFifo
import PouchNode.UplinkPull

/-! Entry blocks without an entry. A write that is refused as too large leaves the block
behind that was allocated for it, and the byte count that is looked at later includes the
block header, so the block is sent by a close or by the next refused write. -/
namespace Pouch
open Machine

def HoldsEntry (block : Buf) : Prop :=
  ∃ entries, entries ≠ [] ∧ blockPayload block = encodings entries

def OnlyEntries (block : Option Buf) : Prop :=
  block = none ∨ ∃ entries, block = some (openBlock 0xC0 (encodings entries))

/- Whenever a block has been allocated and nothing been written into it yet, it is not closed,
   and no entry comes that is too large for it. -/
def FilledFirst (cfg : Config) (calls : List EntryOp) : Prop :=
  ∀ u op v, calls = u++op :: v → filledBy cfg u = some 0 → ¬ op.GivesAway cfg 0

theorem encodings_eq_nil_iff {entries : List PouchEntry} : encodings entries = [] ↔ entries = [] := by
  constructor
  · intro h
    cases entries with
    | nil => rfl
    | cons entry entries => simp [encodings, PouchEntry.encoding] at h
  · rintro rfl
    rfl

section
variable {cfg : Config} {block : Option Buf}

theorem holdsEntry_blockFinish_iff (cfg : Config) (entries : List PouchEntry) :
    HoldsEntry (blockFinish cfg (openBlock 0xC0 (encodings entries))) ↔ entries ≠ [] := by
  have hpayload : blockPayload (blockFinish cfg (openBlock 0xC0 (encodings entries))) =
      encodings entries := rfl
  constructor
  · rintro ⟨held, hne, heq⟩ rfl
    rw [hpayload] at heq
    exact hne (encodings_eq_nil_iff.mp heq.symm)
  · exact fun hne => ⟨entries, hne, hpayload⟩

theorem OnlyEntries.open_eq (h : OnlyEntries block) {b : Buf} (hb : block = some b) :
    ∃ entries, b = openBlock 0xC0 (encodings entries) := by
  cases h with
  | inl hnone => simp [hb] at hnone
  | inr hsome => simpa [hb] using hsome

theorem writeEntry_only (cfg : Config) (entries : List PouchEntry) (entry : PouchEntry) :
    OnlyEntries (some (writeEntry cfg (openBlock 0xC0 (encodings entries)) entry).2) := by
  rw [writeEntry_eq]
  split
  · exact Or.inr ⟨entries++[entry], by simp⟩
  · exact Or.inr ⟨entries, rfl⟩

theorem entryStep_only (h : OnlyEntries block) (op : EntryOp) :
    OnlyEntries (entryStep cfg block op).1 := by
  cases op with
  | close lock =>
    cases lock with
    | err e => exact h
    | ok =>
      cases block with
      | none => exact h
      | some b =>
        obtain ⟨entries, rfl⟩ := h.open_eq rfl
        exact Or.inl (by simp [entryStep, entryBlockClose, blockSizeGet, bufSizeGet])
  | write path contentType data lock alloc =>
    obtain ⟨entry, hw⟩ := pouchUplinkEntryWrite_written cfg path contentType data lock alloc block
    have hnew := writeEntry_only cfg [] entry
    simp only [entryStep]
    generalize pouchUplinkEntryWrite cfg path contentType data lock alloc block = r at hw ⊢
    cases hw with
    | refused e why => exact h
    | fresh before => exact hnew
    | added b written before fits =>
      obtain ⟨entries, rfl⟩ := h.open_eq before
      have honly := writeEntry_only cfg entries entry
      rwa [fits] at honly
    | dropped b before full failed => exact Or.inl rfl
    | replaced b before full => exact hnew

theorem OnlyEntries.shape (h : OnlyEntries block) : EntryShape block := by
  intro b hb
  obtain ⟨entries, rfl⟩ := h.open_eq hb
  exact ⟨_, rfl⟩

/-- What a call gives away has an entry, unless nothing is in it. -/
theorem entryStep_holds_iff (h : OnlyEntries block) (op : EntryOp) :
    (∀ b ∈ (entryStep cfg block op).2.enqueued, HoldsEntry b) ↔
      (filledOf block = some 0 → ¬ op.GivesAway cfg 0) := by
  have hflow := (entryStep_flow cfg h.shape op).2
  generalize (entryStep cfg block op).2.enqueued = enqueued at hflow ⊢
  cases hflow with
  | kept stays => exact iff_of_true (fun b hb => by cases hb) (stays 0)
  | given p before gives =>
    obtain ⟨entries, hentries⟩ := h.open_eq before
    obtain rfl : p = encodings entries := congrArg blockPayload hentries
    rw [List.forall_mem_singleton, holdsEntry_blockFinish_iff, before, filledOf_openBlock,
      Option.some.injEq, List.length_eq_zero_iff, encodings_eq_nil_iff]
    constructor
    · exact fun hne hnil => absurd hnil hne
    · rintro hkeeps rfl
      exact hkeeps rfl gives

/-- All blocks that the calls give away have an entry, exactly if the calls fill them first. -/
theorem entryOps_hold_iff (cfg : Config) (calls : List EntryOp) :
    (∀ u op v, calls = u++op :: v →
      ∀ b ∈ (entryStep cfg (entryOpen cfg u) op).2.enqueued, HoldsEntry b) ↔
      FilledFirst cfg calls := by
  have hstep : ∀ u op, (∀ b ∈ (entryStep cfg (entryOpen cfg u) op).2.enqueued, HoldsEntry b) ↔
      (filledBy cfg u = some 0 → ¬ op.GivesAway cfg 0) := by
    intro u op
    have honly : OnlyEntries (entryOpen cfg u) := final_invariant (entryStep cfg)
      (P := OnlyEntries) (fun _ op hs => entryStep_only hs op) none u (Or.inl rfl)
    rw [← (entryOpen_filled cfg u).2]
    exact entryStep_holds_iff honly op
  simp only [hstep, FilledFirst]

end

section
variable {κ : Type*} {cfg : Config} (crypto : CryptoOps cfg κ)

def entryOp (s : Uplink κ) : UplinkOp → Option EntryOp
  | .write (.entry op) => some op
  | .close lock => if s.pouchClosing then none else some (.close lock)
  | _ => none

def entryOps (s : Uplink κ) : List UplinkOp → List EntryOp
  | [] => []
  | op :: ops => (entryOp s op).toList++entryOps (uplinkStep crypto s op).1 ops

def entryBlocks (s : Uplink κ) (op : UplinkOp) : List Buf :=
  if (entryOp s op).isSome then (uplinkStep crypto s op).2.enqueued else []

theorem entryBlocks_some {s : Uplink κ} {op : UplinkOp} {e : EntryOp} (he : entryOp s op = some e) :
    (uplinkStep crypto s op).1.writers.entry = (entryStep cfg s.writers.entry e).1 ∧
    entryBlocks crypto s op = (entryStep cfg s.writers.entry e).2.enqueued := by
  simp only [entryBlocks, he, Option.isSome_some, if_true]
  cases op with
  | write op =>
    cases op with
    | entry op =>
      cases he
      simp [uplinkStep, uplinkEnqueueAll_eq, writersStep]
    | streamOpen path contentType malloc alloc => cases he
    | streamWrite handle data alloc => cases he
    | streamClose handle => cases he
    | nextSession => cases he
  | close lock =>
    cases hc : s.pouchClosing with
    | true => simp [entryOp, hc] at he
    | false =>
      simp only [entryOp, hc, Bool.false_eq_true, if_false, Option.some.injEq] at he
      subst he
      simp [uplinkStep, pouchUplinkClose, hc, uplinkEnqueueAll_eq, entryStep]
  | enqueue block => cases he
  | process => cases he
  | start => cases he
  | fill maxlen => cases he
  | finish => cases he

theorem entryBlocks_none {s : Uplink κ} {op : UplinkOp} (he : entryOp s op = none) :
    (uplinkStep crypto s op).1.writers.entry = s.writers.entry ∧ entryBlocks crypto s op = [] := by
  refine ⟨?_, by simp [entryBlocks, he]⟩
  rw [uplinkStep_writers]
  cases op with
  | write op =>
    apply writersStep_entry
    rintro e rfl
    cases he
  | close lock =>
    cases hc : s.pouchClosing with
    | true => rfl
    | false => simp [entryOp, hc] at he
  | enqueue block => rfl
  | process => rfl
  | start => rfl
  | fill maxlen => rfl
  | finish => rfl

theorem entryBlocks_run {R : Buf → Prop} (s : Uplink κ) (ops : List UplinkOp) :
    (∀ u op v, ops = u++op :: v → ∀ b ∈ entryBlocks crypto (uplinkFinal crypto s u) op, R b) ↔
      ∀ u op v, entryOps crypto s ops = u++op :: v →
        ∀ b ∈ (entryStep cfg (final (entryStep cfg) s.writers.entry u) op).2.enqueued, R b := by
  induction ops generalizing s with
  | nil =>
    exact ⟨fun _ => forall_steps_nil (entryStep cfg)
      (Q := fun block op => ∀ b ∈ (entryStep cfg block op).2.enqueued, R b) _,
      fun _ => forall_steps_nil (uplinkStep crypto)
        (Q := fun s op => ∀ b ∈ entryBlocks crypto s op, R b) _⟩
  | cons op ops ih =>
    rw [forall_steps_cons (uplinkStep crypto) (Q := fun s op => ∀ b ∈ entryBlocks crypto s op, R b),
      ih]
    cases he : entryOp s op with
    | none =>
      obtain ⟨hentry, hblocks⟩ := entryBlocks_none crypto he
      simp [entryOps, he, hentry, hblocks]
    | some e =>
      obtain ⟨hentry, hblocks⟩ := entryBlocks_some crypto he
      simp only [entryOps, he, Option.toList_some, List.singleton_append]
      rw [forall_steps_cons (entryStep cfg)
        (Q := fun block op => ∀ b ∈ (entryStep cfg block op).2.enqueued, R b), hentry, hblocks]

/-- In every run each entry block given to uplink_enqueue has an entry, exactly if the calls write
an entry into every block that is allocated before they close it or try one that is too
large. -/
theorem entry_blocks_not_empty_iff (k : κ) (ops : List UplinkOp) :
    (∀ u op v, ops = u++op :: v →
      ∀ b ∈ entryBlocks crypto (uplinkFinal crypto (.boot k) u) op, HoldsEntry b) ↔
    FilledFirst cfg (entryOps crypto (.boot k) ops) := by
  rw [entryBlocks_run crypto (R := HoldsEntry), ← entryOps_hold_iff]
  rfl

end

def largeWrite : UplinkOp :=
  .write (.entry (.write (some pathA) 42 (some (List.replicate 600 0)) .ok true))

theorem empty_block_sent :
    entryBlocks pullCrypto (uplinkFinal pullCrypto (.boot ()) [largeWrite]) (.close .ok) =
      [[0, 1, 0xC0]] ∧ ¬ HoldsEntry [0, 1, 0xC0] := by
  refine ⟨by decide +kernel, ?_⟩
  rintro ⟨entries, hne, hpayload⟩
  exact hne (encodings_eq_nil_iff.mp hpayload.symm)

end Pouch
