import PouchNode.Events
import PouchNode.UplinkSession

/-! The events of the uplink. A session starts in one function and ends in either of two;
over any sequence of calls there is one end for each start. -/
namespace Pouch
open Machine
variable {κ : Type*} {cfg : Config}

def countingEnds (crypto : CryptoOps cfg κ) : CryptoOps cfg (κ × Nat) where
  sessionStart k := ((crypto.sessionStart k.1).1, (crypto.sessionStart k.1).2, k.2)
  pouchStart k := ((crypto.pouchStart k.1).1, (crypto.pouchStart k.1).2, k.2)
  headerCreate k := ((crypto.headerCreate k.1).1, (crypto.headerCreate k.1).2, k.2)
  encryptBlock k block := ((crypto.encryptBlock k.1 block).1, (crypto.encryptBlock k.1 block).2, k.2)
  sessionEnd k := (crypto.sessionEnd k.1, k.2 + 1)
  header_lt k := crypto.header_lt k.1
  encrypt_lt k := crypto.encrypt_lt k.1

structure Emitting (κ : Type*) where
  up : Uplink κ
  emitted : List PouchEvent

def Emitting.boot (k : κ) : Emitting κ := ⟨.boot k, []⟩

def Emitting.emit (w : Emitting κ) (event : PouchEvent) : Emitting κ :=
  { w with emitted := w.emitted++[event] }

section
variable (crypto : CryptoOps cfg κ)

def endSessionEmit (w : Emitting κ) : Emitting κ :=
  { w with up := endSession crypto w.up }.emit .sessionEnd

def pouchUplinkStartEmit (w : Emitting κ) : Emitting κ :=
  if w.up.sessionActive then w
  else
    match crypto.sessionStart w.up.crypto with
    | (.err _, k) => { w with up := { w.up with crypto := k } }
    | (.ok, k) =>
      match crypto.pouchStart k with
      | (.err _, k) => { w with up := { w.up with crypto := k } }
      | (.ok, k) =>
        match crypto.headerCreate k with
        | (none, k) => { w with up := { w.up with header := none, crypto := k } }
        | (some header, k) =>
          let w := { w with up :=
            { w.up with sessionActive := true, header := some header, crypto := k } }
          let w := w.emit .sessionStart
          { w with up := { w.up with processing := { w.up.processing with
            pending := w.up.processing.pending || !w.up.processing.queue.isEmpty } } }

def pouchUplinkFillEmit (maxlen : Nat) (w : Emitting κ) : Emitting κ :=
  if !w.up.sessionActive then w
  else
    let (_, reader, transport) :=
      fillLoop cfg (w.up.transport.length + 2) maxlen w.up.reader w.up.transport
    let w := { w with up := { w.up with reader, transport } }
    if !w.up.pouchClosed || decide (pouchBufviewAvailable cfg reader ≠ 0) ||
        !transport.isEmpty then w
    else endSessionEmit crypto w

def pouchUplinkFinishEmit (w : Emitting κ) : Emitting κ :=
  let wasActive := w.up.sessionActive
  let w := { w with up := { w.up with
    transport := []
    reader := pouchBufviewFree w.up.reader
    header := none
    writers := (writersStep cfg w.up.writers .nextSession).1
    sessionActive := false, pouchClosing := false, pouchClosed := false } }
  if wasActive then endSessionEmit crypto w else w

def emitStep (w : Emitting κ) : UplinkOp → Emitting κ × Unit
  | .start => (pouchUplinkStartEmit crypto w, ())
  | .fill maxlen => (pouchUplinkFillEmit crypto maxlen w, ())
  | .finish => (pouchUplinkFinishEmit crypto w, ())
  | op => ({ w with up := (uplinkStep crypto w.up op).1 }, ())

abbrev emitFinal : Emitting κ → List UplinkOp → Emitting κ := final (emitStep crypto)

theorem emitStep_up (w : Emitting κ) (op : UplinkOp) :
    (emitStep crypto w op).1.up = (uplinkStep crypto w.up op).1 := by
  cases op with
  | enqueue block => rfl
  | write op => rfl
  | close lock => rfl
  | process => rfl
  | start =>
    simp only [emitStep, pouchUplinkStartEmit, uplinkStep, pouchUplinkStart]
    split
    · rfl
    · cases crypto.sessionStart w.up.crypto with
      | mk r1 k1 =>
      cases r1 with
      | err e => rfl
      | ok =>
        dsimp only
        cases crypto.pouchStart k1 with
        | mk r2 k2 =>
        cases r2 with
        | err e => rfl
        | ok =>
          dsimp only
          cases crypto.headerCreate k2 with
          | mk header k3 =>
          cases header with
          | none => rfl
          | some header => rfl
  | fill maxlen =>
    simp only [emitStep, pouchUplinkFillEmit, uplinkStep, pouchUplinkFill]
    split
    · rfl
    · split <;> rfl
  | finish =>
    simp only [emitStep, pouchUplinkFinishEmit, uplinkStep, pouchUplinkFinish]
    split <;> rfl

end

def PouchEvent.other : PouchEvent → PouchEvent
  | .sessionStart => .sessionEnd
  | .sessionEnd => .sessionStart

def Alternates : PouchEvent → List PouchEvent → Prop
  | _, [] => True
  | first, event :: events => event = first ∧ Alternates first.other events

def nextEvent : PouchEvent → List PouchEvent → PouchEvent
  | first, [] => first
  | first, _ :: events => nextEvent first.other events

theorem nextEvent_snoc (first event : PouchEvent) (events : List PouchEvent) :
    nextEvent first (events++[event]) = (nextEvent first events).other := by
  induction events generalizing first with
  | nil => rfl
  | cons e events ih => exact ih first.other

theorem alternates_snoc (first event : PouchEvent) (events : List PouchEvent) :
    Alternates first (events++[event]) ↔
      Alternates first events ∧ event = nextEvent first events := by
  induction events generalizing first with
  | nil => simp [Alternates, nextEvent]
  | cons e events ih =>
    simp only [List.cons_append, Alternates, nextEvent, ih, and_assoc]

/- One end for each start, in turn, and a start without its end exactly while the session is
   active; crypto_session_end is called with each end. -/
structure EventsBalanced (w : Emitting (κ × Nat)) : Prop where
  balance : w.emitted.count .sessionStart =
    w.emitted.count .sessionEnd + if w.up.sessionActive then 1 else 0
  alternates : Alternates .sessionStart w.emitted
  crypto : w.up.crypto.2 = w.emitted.count .sessionEnd

inductive EventStep (w t : Emitting (κ × Nat)) : Prop
  | quiet (active : t.up.sessionActive = w.up.sessionActive) (emitted : t.emitted = w.emitted)
      (ends : t.up.crypto.2 = w.up.crypto.2)
  | started (before : w.up.sessionActive = false) (active : t.up.sessionActive = true)
      (emitted : t.emitted = w.emitted++[.sessionStart]) (ends : t.up.crypto.2 = w.up.crypto.2)
  | ended (before : w.up.sessionActive = true) (active : t.up.sessionActive = false)
      (emitted : t.emitted = w.emitted++[.sessionEnd]) (ends : t.up.crypto.2 = w.up.crypto.2 + 1)

section
variable {crypto : CryptoOps cfg κ} {w : Emitting (κ × Nat)}

theorem encryptBlocks_ends (k : κ × Nat) (blocks : List Buf) :
    (encryptBlocks (countingEnds crypto) k blocks).2.2 = k.2 := by
  induction blocks generalizing k with
  | nil => rfl
  | cons block blocks ih =>
    simp only [encryptBlocks]
    rw [ih]
    rfl

theorem pouchUplinkStartEmit_step (w : Emitting (κ × Nat)) :
    EventStep w (pouchUplinkStartEmit (countingEnds crypto) w) := by
  simp only [pouchUplinkStartEmit]
  cases ha : w.up.sessionActive with
  | true => exact .quiet rfl rfl rfl
  | false =>
    simp only [countingEnds, Bool.false_eq_true, if_false]
    cases crypto.sessionStart w.up.crypto.1 with
    | mk r1 k1 =>
    cases r1 with
    | err e => exact .quiet ha.symm rfl rfl
    | ok =>
      dsimp only
      cases crypto.pouchStart k1 with
      | mk r2 k2 =>
      cases r2 with
      | err e => exact .quiet ha.symm rfl rfl
      | ok =>
        dsimp only
        cases crypto.headerCreate k2 with
        | mk header k3 =>
        cases header with
        | none => exact .quiet ha.symm rfl rfl
        | some header => exact .started ha rfl rfl rfl

theorem pouchUplinkFillEmit_step (w : Emitting (κ × Nat)) (maxlen : Nat) :
    EventStep w (pouchUplinkFillEmit (countingEnds crypto) maxlen w) := by
  simp only [pouchUplinkFillEmit]
  cases ha : w.up.sessionActive with
  | false => exact .quiet rfl rfl rfl
  | true =>
    simp only [Bool.not_true, Bool.false_eq_true, if_false]
    split
    · exact .quiet ha.symm rfl rfl
    · exact .ended ha rfl rfl rfl

theorem pouchUplinkFinishEmit_step (w : Emitting (κ × Nat)) :
    EventStep w (pouchUplinkFinishEmit (countingEnds crypto) w) := by
  simp only [pouchUplinkFinishEmit]
  cases ha : w.up.sessionActive with
  | false => exact .quiet ha.symm rfl rfl
  | true => exact .ended ha rfl rfl rfl

/-- Only the transport ends the crypto session. -/
theorem uplinkStep_ends (s : Uplink (κ × Nat)) {op : UplinkOp} (hop : op.isTransport = false) :
    (uplinkStep (countingEnds crypto) s op).1.crypto.2 = s.crypto.2 := by
  cases op with
  | enqueue block => rfl
  | write op => simp [uplinkStep, uplinkEnqueueAll_eq]
  | close lock =>
    cases hc : s.pouchClosing with
    | true => simp [uplinkStep, pouchUplinkClose, hc]
    | false => simp [uplinkStep, pouchUplinkClose, hc, uplinkEnqueueAll_eq]
  | process =>
    cases processBlocks_cases (countingEnds crypto) s with
    | inl hr => simp [uplinkStep, hr.2.2, encryptBlocks_ends]
    | inr hr => simp [uplinkStep, hr.2]
  | start => cases hop
  | fill maxlen => cases hop
  | finish => cases hop

theorem emitStep_event (w : Emitting (κ × Nat)) (op : UplinkOp) :
    EventStep w (emitStep (countingEnds crypto) w op).1 := by
  cases op with
  | start => exact pouchUplinkStartEmit_step w
  | fill maxlen => exact pouchUplinkFillEmit_step w maxlen
  | finish => exact pouchUplinkFinishEmit_step w
  | enqueue block => exact .quiet rfl rfl rfl
  | write op => exact .quiet (uplinkStep_sessionActive _ _ rfl) rfl (uplinkStep_ends _ rfl)
  | close lock => exact .quiet (uplinkStep_sessionActive _ _ rfl) rfl (uplinkStep_ends _ rfl)
  | process => exact .quiet (uplinkStep_sessionActive _ _ rfl) rfl (uplinkStep_ends _ rfl)

end

structure EventInv (w : Emitting (κ × Nat)) : Prop where
  balanced : EventsBalanced w
  turn : nextEvent .sessionStart w.emitted =
    if w.up.sessionActive then .sessionEnd else .sessionStart

theorem eventInv_boot (k : κ) : EventInv (Emitting.boot (k, 0)) :=
  ⟨⟨rfl, trivial, rfl⟩, rfl⟩

theorem EventInv.step {w t : Emitting (κ × Nat)} (h : EventInv w) (hstep : EventStep w t) :
    EventInv t := by
  have hbalance := h.balanced.balance
  have hcrypto := h.balanced.crypto
  have hturn := h.turn
  cases hstep with
  | quiet active emitted ends =>
    refine ⟨⟨?_, ?_, ?_⟩, ?_⟩
    · rw [active, emitted, hbalance]
    · rw [emitted]
      exact h.balanced.alternates
    · rw [ends, emitted, hcrypto]
    · rw [active, emitted, hturn]
  | started before active emitted ends =>
    rw [before] at hbalance hturn
    refine ⟨⟨?_, ?_, ?_⟩, ?_⟩
    · simpa [active, emitted] using hbalance
    · rw [emitted, alternates_snoc]
      exact ⟨h.balanced.alternates, hturn.symm⟩
    · simpa [ends, emitted] using hcrypto
    · rw [emitted, nextEvent_snoc, hturn, active]
      rfl
  | ended before active emitted ends =>
    rw [before] at hbalance hturn
    refine ⟨⟨?_, ?_, ?_⟩, ?_⟩
    · simpa [active, emitted] using hbalance
    · rw [emitted, alternates_snoc]
      exact ⟨h.balanced.alternates, hturn.symm⟩
    · simpa [ends, emitted] using hcrypto
    · rw [emitted, nextEvent_snoc, hturn, active]
      rfl

/-- After every sequence of calls, the events emitted are starts and ends in turn, with one
start more exactly if the session is active, and crypto_session_end has been called once
for each end. -/
theorem session_events_balanced (crypto : CryptoOps cfg κ) (k : κ) (ops : List UplinkOp) :
    EventsBalanced (emitFinal (countingEnds crypto) (.boot (k, 0)) ops) :=
  (final_invariant (emitStep (countingEnds crypto)) (P := EventInv)
    (fun w op h => h.step (emitStep_event w op)) _ ops (eventInv_boot k)).balanced

end Pouch
