import PouchNode.UplinkPull

/-! A pouch_uplink_close that cannot take the mutex of the entry block. POUCH_CLOSING has been
set by then and stays set, so the next run of process_blocks closes the pouch without its
entry block, and closing it again is refused. -/
namespace Pouch
open Machine

section
variable {κ : Type*} {cfg : Config} (crypto : CryptoOps cfg κ)

/- A close that has failed can be tried again: the flags are as before, the pouch is not closed
   because of it, however the run goes on, and a close that gets the mutex succeeds and
   includes the entry block. -/
structure CloseRetriable (s t : Uplink κ) : Prop where
  flags : t.sessionActive = s.sessionActive ∧ t.pouchClosing = s.pouchClosing ∧
    t.pouchClosed = s.pouchClosed
  open_after : ∀ ops, (final (uplinkStep crypto) t ops).pouchClosed =
    (final (uplinkStep crypto) s ops).pouchClosed
  retry : (pouchUplinkClose cfg .ok t).1 = .ok ∧
    (pouchUplinkClose cfg .ok t).2.2 = (entryBlockClose cfg .ok s.writers.entry).2.2

theorem entryBlockClose_ret (block : Option Buf) : (entryBlockClose cfg .ok block).1 = .ok := by
  cases block with
  | none => rfl
  | some block =>
    simp only [entryBlockClose]
    split <;> rfl

theorem pouchUplinkClose_failed {s : Uplink κ} (hopen : s.pouchClosing = false) (e : Errno) :
    pouchUplinkClose cfg (.err e) s = (.err e, { s with
      pouchClosing := true, processing := { s.processing with pending := true } }, []) := by
  simp [pouchUplinkClose, hopen, entryBlockClose, uplinkEnqueueAll]

theorem processBlocks_closed {s : Uplink κ} (hclosing : s.pouchClosing = true) :
    (uplinkStep crypto s .process).1.pouchClosed = true := by
  cases processBlocks_cases crypto s with
  | inl hr => simp [uplinkStep, hr.2.2, hclosing]
  | inr hr => simp [uplinkStep, hr.2, hclosing]

/-- What a failed close leads to: the pouch is closed by the next run of process_blocks, and
every further close is refused. -/
theorem failed_close_final {s : Uplink κ} (hopen : s.pouchClosing = false) (e : Errno) :
    (uplinkStep crypto (pouchUplinkClose cfg (.err e) s).2.1 .process).1.pouchClosed = true ∧
    ∀ lock, (pouchUplinkClose cfg lock (pouchUplinkClose cfg (.err e) s).2.1).1 =
      .err .ealready := by
  rw [pouchUplinkClose_failed hopen]
  exact ⟨processBlocks_closed crypto rfl, fun lock => rfl⟩

/-- A close that returns an error other than -EALREADY can be retried exactly if there is no
such error: the pouch is closing already, or the mutex has been taken in time. -/
theorem failed_close_retriable_iff (lock : Ret) (s : Uplink κ) :
    ((pouchUplinkClose cfg lock s).1 ≠ .ok → (pouchUplinkClose cfg lock s).1 ≠ .err .ealready →
      CloseRetriable crypto s (pouchUplinkClose cfg lock s).2.1) ↔
    s.pouchClosing = true ∨ lock = .ok ∨ lock = .err .ealready := by
  cases hc : s.pouchClosing with
  | true =>
    refine iff_of_true ?_ (Or.inl rfl)
    intro _ hother
    exact absurd (by simp [pouchUplinkClose, hc]) hother
  | false =>
    cases lock with
    | ok =>
      refine iff_of_true ?_ (Or.inr (Or.inl rfl))
      intro herror
      refine absurd ?_ herror
      simp [pouchUplinkClose, hc, entryBlockClose_ret]
    | err e =>
      by_cases he : e = .ealready
      · subst he
        refine iff_of_true ?_ (Or.inr (Or.inr rfl))
        intro _ hother
        rw [pouchUplinkClose_failed hc] at hother
        exact absurd rfl hother
      · refine iff_of_false ?_ (by simp [he])
        intro h
        have hretry := (h (by simp [pouchUplinkClose_failed hc])
          (by simp [pouchUplinkClose_failed hc, he])).retry.1
        rw [(failed_close_final crypto hc e).2] at hretry
        cases hretry

end

def oneEntryRun : List UplinkOp :=
  [.start, .write (.entry (.write (some pathA) 42 (some [1]) .ok true))]

/-- The mutex is held for longer than the timeout: the close returns -EAGAIN, and the pouch is
closed without the entry. -/
theorem timed_out_close_not_retriable :
    (pouchUplinkClose pullConfig (.err .eagain) (uplinkFinal pullCrypto (.boot ()) oneEntryRun)).1 =
      .err .eagain ∧
    ¬ CloseRetriable pullCrypto (uplinkFinal pullCrypto (.boot ()) oneEntryRun)
      (pouchUplinkClose pullConfig (.err .eagain)
        (uplinkFinal pullCrypto (.boot ()) oneEntryRun)).2.1 ∧
    (uplinkFinal pullCrypto (.boot ())
      (oneEntryRun++[.close (.err .eagain), .process, .close .ok, .process])).pouchClosed = true ∧
    (uplinkFinal pullCrypto (.boot ())
      (oneEntryRun++[.close (.err .eagain), .process, .close .ok, .process])).transport = [] := by
  refine ⟨rfl, fun h => ?_, rfl, rfl⟩
  exact absurd h.flags.2.1 (by decide)

end Pouch
