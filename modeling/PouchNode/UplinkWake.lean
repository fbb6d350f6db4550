import PouchNode.UplinkPull

/-! Wake-ups of the processing work item. Every call of the uplink and process_blocks itself
are taken apart where another thread can get in between; which of them moves next is free.
A block that can be processed is never left with nobody about to process it. -/
namespace Pouch
open Machine
variable {κ : Type*} {cfg : Config}

inductive HandlerPhase where
  | idle
  | testActive | testOpen | testQueue | take
  | encrypt (block : Buf)
  | submitHeader (encrypted : Buf)
  | submitBlock (encrypted : Buf)
  | testClosing | setClosed
  deriving DecidableEq, Repr

/- How far a thread is in a call, by what it does next. A call that enqueues blocks keeps
   those it still has, and whether pouch_uplink_close goes on after them. -/
inductive ThreadPhase where
  | idle
  | enqueue (block : Buf) (rest : List Buf) (closing : Bool)
  | enqueueSubmit (rest : List Buf) (closing : Bool)
  | closeEntry (lock : Ret) | closeSubmit
  | sessionStart | pouchStart | headerCreate | startTest | startSubmit | startFail
  | fillTest
  | finishFlags
  | sessionEnd | clearActive
  deriving DecidableEq

structure Waking (κ : Type*) where
  up : Uplink κ
  handler : HandlerPhase
  threads : Nat → ThreadPhase

def Waking.boot (k : κ) : Waking κ := ⟨.boot k, .idle, fun _ => .idle⟩

def Uplink.submitWork (s : Uplink κ) : Uplink κ :=
  { s with processing := { s.processing with pending := true } }

def ThreadPhase.enqueueAll (closing : Bool) : List Buf → ThreadPhase
  | [] => if closing then .closeSubmit else .idle
  | block :: rest => .enqueue block rest closing

def callStart (cfg : Config) (s : Uplink κ) : UplinkOp → ThreadPhase × Uplink κ
  | .enqueue block => (.enqueue block [] false, s)
  | .write op =>
    let (writers, out) := writersStep cfg s.writers op
    (.enqueueAll false out.enqueued, { s with writers })
  | .close lock =>
    if s.pouchClosing then (.idle, s) else (.closeEntry lock, { s with pouchClosing := true })
  -- the work queue's
  | .process => (.idle, s)
  | .start =>
    if s.sessionActive then (.idle, s) else (.sessionStart, { s with sessionActive := true })
  | .fill maxlen =>
    if !s.sessionActive then (.idle, s)
    else
      let (_, reader, transport) :=
        fillLoop cfg (s.transport.length + 2) maxlen s.reader s.transport
      (.fillTest, { s with reader, transport })
  | .finish =>
    (.finishFlags, { s with
      transport := []
      reader := pouchBufviewFree s.reader
      header := none
      writers := (writersStep cfg s.writers .nextSession).1 })

section
variable (crypto : CryptoOps cfg κ)

def threadStep (s : Uplink κ) : ThreadPhase → ThreadPhase × Uplink κ
  | .idle => (.idle, s)
  | .enqueue block rest closing =>
    (.enqueueSubmit rest closing,
      { s with processing :=
        { s.processing with queue := bufQueueSubmit s.processing.queue block } })
  | .enqueueSubmit rest closing => (.enqueueAll closing rest, s.submitWork)
  | .closeEntry lock =>
    let (_, entry, enqueued) := entryBlockClose cfg lock s.writers.entry
    (.enqueueAll true enqueued, { s with writers := { s.writers with entry } })
  | .closeSubmit => (.idle, s.submitWork)
  | .sessionStart =>
    match crypto.sessionStart s.crypto with
    | (.err _, k) => (.startFail, { s with crypto := k })
    | (.ok, k) => (.pouchStart, { s with crypto := k })
  | .pouchStart =>
    match crypto.pouchStart s.crypto with
    | (.err _, k) => (.startFail, { s with crypto := k })
    | (.ok, k) => (.headerCreate, { s with crypto := k })
  | .headerCreate =>
    match crypto.headerCreate s.crypto with
    | (none, k) => (.startFail, { s with header := none, crypto := k })
    | (some header, k) => (.startTest, { s with header := some header, crypto := k })
  | .startTest => (if s.processing.queue.isEmpty then .idle else .startSubmit, s)
  | .startSubmit => (.idle, s.submitWork)
  | .startFail => (.idle, { s with sessionActive := false })
  | .fillTest =>
    if !s.pouchClosed || decide (pouchBufviewAvailable cfg s.reader ≠ 0) || !s.transport.isEmpty then
      (.idle, s)
    else (.sessionEnd, s)
  | .finishFlags =>
    (if s.sessionActive then .sessionEnd else .idle,
      { s with sessionActive := false, pouchClosing := false, pouchClosed := false })
  | .sessionEnd => (.clearActive, { s with crypto := crypto.sessionEnd s.crypto })
  | .clearActive => (.idle, { s with sessionActive := false })

/- The handler only starts for a pending item. Nobody else takes blocks, so one is there
   when it takes one. -/
def handlerStep (s : Uplink κ) : HandlerPhase → HandlerPhase × Uplink κ
  | .idle =>
    if s.processing.pending then
      (.testActive, { s with processing := { s.processing with pending := false } })
    else (.idle, s)
  | .testActive => (if s.sessionActive then .testOpen else .testClosing, s)
  | .testOpen => (if s.pouchClosed then .testClosing else .testQueue, s)
  | .testQueue => (if s.processing.queue.isEmpty then .testClosing else .take, s)
  | .take =>
    match bufQueueGet s.processing.queue with
    | (none, _) => (.testActive, s)
    | (some block, queue) =>
      (.encrypt block, { s with processing := { s.processing with queue } })
  | .encrypt block =>
    match crypto.encryptBlock s.crypto block with
    | (none, k) => (.testActive, { s with crypto := k })
    | (some encrypted, k) => (.submitHeader encrypted, { s with crypto := k })
  | .submitHeader encrypted =>
    match s.header with
    | none => (.submitBlock encrypted, s)
    | some header =>
      (.submitBlock encrypted,
        { s with transport := bufQueueSubmit s.transport header, header := none })
  | .submitBlock encrypted =>
    (.testActive, { s with transport := bufQueueSubmit s.transport encrypted })
  | .testClosing => (if s.pouchClosing then .setClosed else .idle, s)
  | .setClosed => (.idle, { s with pouchClosed := true })

inductive WakeOp where
  | call (t : Nat) (op : UplinkOp)
  | thread (t : Nat)
  | handler

def Waking.moved (w : Waking κ) (t : Nat) (r : ThreadPhase × Uplink κ) : Waking κ :=
  { w with up := r.2, threads := Function.update w.threads t r.1 }

def wakeStep (w : Waking κ) : WakeOp → Waking κ × Unit
  | .call t op =>
    (if w.threads t = .idle then w.moved t (callStart cfg w.up op) else w, ())
  | .thread t => (w.moved t (threadStep crypto w.up (w.threads t)), ())
  | .handler =>
    let (handler, up) := handlerStep crypto w.up w.handler
    ({ w with up, handler }, ())

abbrev wakeFinal : Waking κ → List WakeOp → Waking κ := final (wakeStep crypto)

end

def ThreadPhase.BeforeSubmit : ThreadPhase → Prop
  | .enqueue _ _ _ | .enqueueSubmit _ _ => True
  | .sessionStart | .pouchStart | .headerCreate | .startTest | .startSubmit | .startFail => True
  | _ => False

def HandlerPhase.InLoop : HandlerPhase → Prop
  | .idle | .testClosing | .setClosed => False
  | _ => True

structure Uplink.Waits (s : Uplink κ) : Prop where
  active : s.sessionActive = true
  isOpen : s.pouchClosed = false
  queue : s.processing.queue ≠ []

def NoLostWakeup (w : Waking κ) : Prop :=
  w.up.Waits → w.up.processing.pending = true ∨ w.handler ≠ .idle ∨
    ∃ t, (w.threads t).BeforeSubmit

/- What the moves of a thread leave of a wake-up: if a block waits afterwards then it is
   marked or this thread is about to, or it waited before and nothing was taken back. -/
def Rouses (p : ThreadPhase) (s : Uplink κ) (r : ThreadPhase × Uplink κ) : Prop :=
  r.2.Waits → r.2.processing.pending = true ∨ r.1.BeforeSubmit ∨
    (s.Waits ∧ r.2.processing.pending = s.processing.pending ∧ ¬ p.BeforeSubmit)

theorem Rouses.quiet {p : ThreadPhase} {s : Uplink κ} {r : ThreadPhase × Uplink κ}
    (hp : ¬ p.BeforeSubmit) (hactive : r.2.sessionActive = s.sessionActive)
    (hclosed : r.2.pouchClosed = s.pouchClosed) (hprocessing : r.2.processing = s.processing) :
    Rouses p s r := by
  intro hw
  right
  right
  have hs : s.Waits :=
    ⟨hactive ▸ hw.active, hclosed ▸ hw.isOpen, hprocessing ▸ hw.queue⟩
  exact ⟨hs, by rw [hprocessing], hp⟩

theorem Rouses.inactive {p : ThreadPhase} {s : Uplink κ} {r : ThreadPhase × Uplink κ}
    (h : r.2.sessionActive = false) : Rouses p s r := by
  intro hw
  rw [hw.active] at h
  cases h

theorem Rouses.submits {p : ThreadPhase} {s : Uplink κ} {r : ThreadPhase × Uplink κ}
    (h : r.1.BeforeSubmit) : Rouses p s r := fun _ => Or.inr (Or.inl h)

theorem Rouses.marked {p : ThreadPhase} {s : Uplink κ} {r : ThreadPhase × Uplink κ}
    (h : r.2.processing.pending = true) : Rouses p s r := fun _ => Or.inl h

theorem callStart_rouses (cfg : Config) (s : Uplink κ) (op : UplinkOp) :
    Rouses .idle s (callStart cfg s op) := by
  have hidle : ¬ ThreadPhase.idle.BeforeSubmit := id
  cases op with
  | enqueue block => exact Rouses.submits trivial
  | write op => exact Rouses.quiet hidle rfl rfl rfl
  | close lock =>
    simp only [callStart]
    split <;> exact Rouses.quiet hidle rfl rfl rfl
  | process => exact Rouses.quiet hidle rfl rfl rfl
  | start =>
    simp only [callStart]
    split
    · exact Rouses.quiet hidle rfl rfl rfl
    · exact Rouses.submits trivial
  | fill maxlen =>
    simp only [callStart]
    split <;> exact Rouses.quiet hidle rfl rfl rfl
  | finish => exact Rouses.quiet hidle rfl rfl rfl

theorem callStart_processing (cfg : Config) (s : Uplink κ) (op : UplinkOp) :
    (callStart cfg s op).2.processing = s.processing := by
  cases op with
  | close | start | fill =>
    simp only [callStart]
    split <;> rfl
  | _ => rfl

section
variable (crypto : CryptoOps cfg κ)

theorem threadStep_rouses (s : Uplink κ) (p : ThreadPhase) :
    Rouses p s (threadStep crypto s p) := by
  cases p with
  | idle => exact Rouses.quiet id rfl rfl rfl
  | enqueue block rest closing => exact Rouses.submits trivial
  | enqueueSubmit rest closing => exact Rouses.marked rfl
  | closeEntry lock => exact Rouses.quiet id rfl rfl rfl
  | closeSubmit => exact Rouses.marked rfl
  | sessionStart | pouchStart | headerCreate =>
    simp only [threadStep]
    split <;> exact Rouses.submits trivial
  | startTest =>
    -- either the queue is empty, so that nothing waits, or the work is submitted next
    cases hqueue : s.processing.queue with
    | nil =>
      intro hw
      exact absurd hqueue hw.queue
    | cons block queue =>
      apply Rouses.submits
      simp [threadStep, hqueue, ThreadPhase.BeforeSubmit]
  | startSubmit => exact Rouses.marked rfl
  | startFail => exact Rouses.inactive rfl
  | fillTest =>
    simp only [threadStep]
    split <;> exact Rouses.quiet id rfl rfl rfl
  | finishFlags => exact Rouses.inactive rfl
  | sessionEnd => exact Rouses.quiet id rfl rfl rfl
  | clearActive => exact Rouses.inactive rfl

theorem threadStep_queue (s : Uplink κ) (p : ThreadPhase) :
    ∃ new, (threadStep crypto s p).2.processing.queue = s.processing.queue++new := by
  cases p with
  | enqueue block rest closing => exact ⟨[block], rfl⟩
  | sessionStart | pouchStart | headerCreate | fillTest =>
    simp only [threadStep]
    split <;> exact ⟨[], (List.append_nil _).symm⟩
  | _ => exact ⟨[], (List.append_nil _).symm⟩

theorem handlerStep_take {s : Uplink κ} {p : HandlerPhase}
    (h : (handlerStep crypto s p).1 = .take) : (handlerStep crypto s p).2.processing.queue ≠ [] := by
  cases p with
  | testQueue =>
    intro hnil
    have hempty : s.processing.queue = [] := hnil
    simp [handlerStep, hempty] at h
  | submitBlock encrypted => cases h
  | setClosed => cases h
  | _ =>
    simp only [handlerStep] at h
    split at h <;> cases h

/-- The handler stays in its loop or leaves it when no block waits; outside of the loop it
makes no block wait. -/
theorem handlerStep_cases (s : Uplink κ) (p : HandlerPhase) :
    (handlerStep crypto s p).1.InLoop ∨
    (p.InLoop ∧ ¬ (handlerStep crypto s p).2.Waits) ∨
    (¬ p.InLoop ∧ ((handlerStep crypto s p).2.Waits → s.Waits) ∧
      (handlerStep crypto s p).2.processing = s.processing) := by
  cases p with
  | idle =>
    simp only [handlerStep]
    split
    · exact Or.inl trivial
    · exact Or.inr (Or.inr ⟨id, id, rfl⟩)
  | testActive =>
    cases ha : s.sessionActive with
    | true => simp [handlerStep, ha, HandlerPhase.InLoop]
    | false =>
      right
      left
      constructor
      · trivial
      · intro hw
        have := hw.active
        simp [handlerStep, ha] at this
  | testOpen =>
    cases hc : s.pouchClosed with
    | false => simp [handlerStep, hc, HandlerPhase.InLoop]
    | true =>
      right
      left
      constructor
      · trivial
      · intro hw
        have := hw.isOpen
        simp [handlerStep, hc] at this
  | testQueue =>
    cases hqueue : s.processing.queue with
    | cons block queue => simp [handlerStep, hqueue, HandlerPhase.InLoop]
    | nil =>
      right
      left
      constructor
      · trivial
      · exact fun hw => hw.queue hqueue
  | take | encrypt | submitHeader =>
    simp only [handlerStep]
    split <;> exact Or.inl trivial
  | submitBlock encrypted => exact Or.inl trivial
  | testClosing => exact Or.inr (Or.inr ⟨id, id, rfl⟩)
  | setClosed =>
    right
    right
    refine ⟨id, ?_, rfl⟩
    intro hw
    cases hw.isOpen

def WakeInv (w : Waking κ) : Prop :=
  w.handler.InLoop ∨
    (w.up.Waits → w.up.processing.pending = true ∨ ∃ t, (w.threads t).BeforeSubmit)

theorem WakeInv.moved {w : Waking κ} (h : WakeInv w) (t : Nat) {r : ThreadPhase × Uplink κ}
    (hr : Rouses (w.threads t) w.up r) : WakeInv (w.moved t r) := by
  cases h with
  | inl hloop => exact Or.inl hloop
  | inr hwoken =>
    right
    intro hw
    rcases hr hw with hpending | hsubmits | ⟨hbefore, hsame, hnot⟩
    · exact Or.inl hpending
    · exact Or.inr ⟨t, by simpa [Waking.moved] using hsubmits⟩
    · cases hwoken hbefore with
      | inl hpending => exact Or.inl (hsame.trans hpending)
      | inr hother =>
        -- it is another thread that is about to submit, and that one has not moved
        obtain ⟨u, hu⟩ := hother
        have hne : u ≠ t := by
          rintro rfl
          exact hnot hu
        exact Or.inr ⟨u, by simpa [Waking.moved, Function.update_of_ne hne] using hu⟩

theorem WakeInv.handler {w : Waking κ} (h : WakeInv w) :
    WakeInv (wakeStep crypto w .handler).1 := by
  rcases handlerStep_cases crypto w.up w.handler with hloop | ⟨-, hdone⟩ | ⟨hout, hwaits, hsame⟩
  · exact Or.inl hloop
  · exact Or.inr fun hw => absurd hw hdone
  · right
    intro hw
    have hwoken := (h.resolve_left hout) (hwaits hw)
    rwa [← hsame] at hwoken

theorem WakeInv.step {w : Waking κ} (h : WakeInv w) (op : WakeOp) :
    WakeInv (wakeStep crypto w op).1 := by
  cases op with
  | call t op =>
    simp only [wakeStep]
    split
    · next hidle => exact h.moved t (hidle ▸ callStart_rouses cfg w.up op)
    · exact h
  | thread t => exact h.moved t (threadStep_rouses crypto w.up (w.threads t))
  | handler => exact h.handler crypto

/-- When the handler gets to taking a block, there still is one. -/
theorem handler_takes_block (k : κ) (ops : List WakeOp) :
    (wakeFinal crypto (Waking.boot k) ops).handler = .take →
      (wakeFinal crypto (Waking.boot k) ops).up.processing.queue ≠ [] := by
  have hstep : ∀ (w : Waking κ) (op : WakeOp), (w.handler = .take → w.up.processing.queue ≠ []) →
      (wakeStep crypto w op).1.handler = .take →
        (wakeStep crypto w op).1.up.processing.queue ≠ [] := by
    intro w op h
    cases op with
    | call t op =>
      simp only [wakeStep]
      split
      · simpa only [Waking.moved, callStart_processing] using h
      · exact h
    | thread t =>
      intro htake hnil
      obtain ⟨new, hnew⟩ := threadStep_queue crypto w.up (w.threads t)
      simp only [wakeStep, Waking.moved, hnew, List.append_eq_nil_iff] at hnil
      exact h htake hnil.1
    | handler =>
      intro htake
      exact handlerStep_take crypto htake
  exact final_invariant (wakeStep crypto) hstep (Waking.boot k) ops (by simp [Waking.boot])

/-- No block that could be processed waits without the work item pending or running, or a
thread about to submit it, whatever the threads and the work queue do. -/
theorem no_lost_wakeup (k : κ) (ops : List WakeOp) :
    NoLostWakeup (wakeFinal crypto (Waking.boot k) ops) := by
  have hboot : WakeInv (Waking.boot k) := by
    right
    intro hw
    exact absurd rfl hw.queue
  have h := final_invariant (wakeStep crypto) (P := WakeInv) (fun w op hw => hw.step crypto op)
    (Waking.boot k) ops hboot
  intro hw
  cases h with
  | inl hloop =>
    right
    left
    intro hidle
    rw [hidle] at hloop
    exact hloop
  | inr hwoken =>
    cases hwoken hw with
    | inl hpending => exact Or.inl hpending
    | inr hthread => exact Or.inr (Or.inr hthread)

def Alone (op : WakeOp) (w v : Waking κ) : Prop :=
  ∃ n, wakeFinal crypto w (List.replicate n op) = v

variable {crypto}

theorem Alone.of_eq {op : WakeOp} {w v : Waking κ} (h : w = v) : Alone crypto op w v := ⟨0, h⟩

theorem Alone.head {op : WakeOp} {w v : Waking κ} (h : Alone crypto op (wakeStep crypto w op).1 v) :
    Alone crypto op w v := by
  obtain ⟨n, hn⟩ := h
  exact ⟨n + 1, by rwa [List.replicate_succ, wakeFinal, final_cons]⟩

theorem Alone.trans {op : WakeOp} {w v u : Waking κ} (h : Alone crypto op w v)
    (h' : Alone crypto op v u) : Alone crypto op w u := by
  obtain ⟨n, hn⟩ := h
  obtain ⟨m, hm⟩ := h'
  subst hn
  exact ⟨n + m, by rwa [List.replicate_add, wakeFinal, final_append]⟩

theorem Alone.moved {t : Nat} {w v : Waking κ} {r : ThreadPhase × Uplink κ}
    (h : Alone crypto (.thread t) (w.moved t (threadStep crypto r.2 r.1)) v) :
    Alone crypto (.thread t) (w.moved t r) v := by
  apply Alone.head
  simpa [wakeStep, Waking.moved] using h

theorem enqueueAll_alone (w : Waking κ) (t : Nat) (closing : Bool) (s : Uplink κ)
    (blocks : List Buf) :
    Alone crypto (.thread t) (w.moved t (.enqueueAll closing blocks, s))
      (w.moved t (.enqueueAll closing [], uplinkEnqueueAll s blocks)) := by
  induction blocks generalizing s with
  | nil => exact Alone.of_eq rfl
  | cons block blocks ih =>
    apply Alone.moved
    apply Alone.moved
    exact ih (uplinkEnqueue s block)

theorem moved_idle {w : Waking κ} {t : Nat} (hidle : w.threads t = .idle) (s : Uplink κ) :
    w.moved t (.idle, s) = { w with up := s } := by
  rw [Waking.moved, ← hidle, Function.update_eq_self]

theorem close_alone (w : Waking κ) (t : Nat) (lock : Ret) :
    Alone crypto (.thread t) (w.moved t (callStart cfg w.up (.close lock)))
      (w.moved t (.idle, (uplinkStep crypto w.up (.close lock)).1)) := by
  cases hc : w.up.pouchClosing with
  | true =>
    simp only [callStart, uplinkStep, pouchUplinkClose, hc, if_true]
    exact Alone.of_eq rfl
  | false =>
    simp only [callStart, uplinkStep, pouchUplinkClose, hc, Bool.false_eq_true, if_false]
    apply Alone.moved
    apply (enqueueAll_alone _ _ true _ _).trans
    apply Alone.moved
    exact Alone.of_eq rfl

theorem start_alone (w : Waking κ) (t : Nat) :
    Alone crypto (.thread t) (w.moved t (callStart cfg w.up .start))
      (w.moved t (.idle, (uplinkStep crypto w.up .start).1)) := by
  cases ha : w.up.sessionActive with
  | true =>
    simp only [callStart, uplinkStep, pouchUplinkStart, ha, if_true]
    exact Alone.of_eq rfl
  | false =>
    simp only [callStart, uplinkStep, pouchUplinkStart, ha, Bool.false_eq_true, if_false]
    apply Alone.moved
    cases hsession : crypto.sessionStart w.up.crypto with
    | mk r1 k1 =>
    cases r1 with
    | err e =>
      simp only [threadStep, hsession]
      apply Alone.moved
      exact Alone.of_eq (by simp [threadStep, ← ha])
    | ok =>
      simp only [threadStep, hsession]
      apply Alone.moved
      cases hpouch : crypto.pouchStart k1 with
      | mk r2 k2 =>
      cases r2 with
      | err e =>
        simp only [threadStep, hpouch]
        apply Alone.moved
        exact Alone.of_eq (by simp [threadStep, ← ha])
      | ok =>
        simp only [threadStep, hpouch]
        apply Alone.moved
        cases hheader : crypto.headerCreate k2 with
        | mk header k3 =>
        cases header with
        | none =>
          simp only [threadStep, hheader]
          apply Alone.moved
          exact Alone.of_eq (by simp [threadStep, ← ha])
        | some header =>
          simp only [threadStep, hheader]
          apply Alone.moved
          cases hempty : w.up.processing.queue.isEmpty with
          | true =>
            simp only [threadStep, hempty, if_true, Bool.not_true, Bool.or_false]
            exact Alone.of_eq rfl
          | false =>
            simp only [threadStep, hempty, Bool.false_eq_true, if_false, Bool.not_false,
              Bool.or_true]
            apply Alone.moved
            exact Alone.of_eq rfl

theorem fill_alone (w : Waking κ) (t maxlen : Nat) :
    Alone crypto (.thread t) (w.moved t (callStart cfg w.up (.fill maxlen)))
      (w.moved t (.idle, (uplinkStep crypto w.up (.fill maxlen)).1)) := by
  cases ha : w.up.sessionActive with
  | false =>
    simp only [callStart, uplinkStep, pouchUplinkFill, ha, Bool.not_false, if_true]
    exact Alone.of_eq rfl
  | true =>
    simp only [callStart, uplinkStep, pouchUplinkFill, ha, Bool.not_true, Bool.false_eq_true,
      if_false]
    apply Alone.moved
    simp only [threadStep]
    split
    · exact Alone.of_eq rfl
    · apply Alone.moved
      apply Alone.moved
      exact Alone.of_eq rfl

theorem finish_alone (w : Waking κ) (t : Nat) :
    Alone crypto (.thread t) (w.moved t (callStart cfg w.up .finish))
      (w.moved t (.idle, (uplinkStep crypto w.up .finish).1)) := by
  simp only [callStart, uplinkStep, pouchUplinkFinish]
  apply Alone.moved
  simp only [threadStep]
  split
  · apply Alone.moved
    apply Alone.moved
    exact Alone.of_eq rfl
  · exact Alone.of_eq rfl

/-- A call that nobody interrupts does what it does in one step. -/
theorem call_alone {w : Waking κ} {t : Nat} (hidle : w.threads t = .idle) (op : UplinkOp)
    (hop : op ≠ .process) :
    Alone crypto (.thread t) (wakeStep crypto w (.call t op)).1
      { w with up := (uplinkStep crypto w.up op).1 } := by
  rw [← moved_idle hidle]
  simp only [wakeStep, hidle, if_true]
  cases op with
  | enqueue block => exact enqueueAll_alone w t false w.up [block]
  | write op => exact enqueueAll_alone w t false _ _
  | close lock => exact close_alone w t lock
  | process => exact absurd rfl hop
  | start => exact start_alone w t
  | fill maxlen => exact fill_alone w t maxlen
  | finish => exact finish_alone w t

theorem Alone.handled {w v : Waking κ} {s s' : Uplink κ} {p p' : HandlerPhase}
    (hstep : handlerStep crypto s p = (p', s'))
    (h : Alone crypto .handler { w with up := s', handler := p' } v) :
    Alone crypto .handler { w with up := s, handler := p } v := by
  apply Alone.head
  simpa only [wakeStep, hstep] using h

def Uplink.processed (s : Uplink κ) (r : Option Buf × BufQueue × κ) : Uplink κ :=
  { s with
    header := r.1
    transport := r.2.1
    processing := { s.processing with queue := [] }
    crypto := r.2.2 }

theorem Alone.tested {w v : Waking κ} {s : Uplink κ} (ha : s.sessionActive = true)
    (hc : s.pouchClosed = false)
    (h : Alone crypto .handler { w with up := s, handler := .testQueue } v) :
    Alone crypto .handler { w with up := s, handler := .testActive } v := by
  have hactive : handlerStep crypto s .testActive = (.testOpen, s) := by simp [handlerStep, ha]
  have hopen : handlerStep crypto s .testOpen = (.testQueue, s) := by simp [handlerStep, hc]
  exact Alone.handled hactive (Alone.handled hopen h)

theorem submit_alone (w : Waking κ) (s : Uplink κ) (encrypted : Buf) :
    Alone crypto .handler { w with up := s, handler := .submitHeader encrypted }
      { w with
        up := { s with
          header := none
          transport := bufQueueSubmit (match s.header with
            | none => s.transport
            | some header => bufQueueSubmit s.transport header) encrypted }
        handler := .testActive } := by
  cases hheader : s.header with
  | none =>
    have hnone : handlerStep crypto s (.submitHeader encrypted) = (.submitBlock encrypted, s) := by
      simp [handlerStep, hheader]
    apply Alone.handled hnone
    apply Alone.handled rfl
    exact Alone.of_eq (by simp [hheader])
  | some header =>
    have hstored : handlerStep crypto s (.submitHeader encrypted) = (.submitBlock encrypted,
        { s with transport := bufQueueSubmit s.transport header, header := none }) := by
      simp [handlerStep, hheader]
    apply Alone.handled hstored
    apply Alone.handled rfl
    exact Alone.of_eq rfl

/-- The loop of process_blocks, when no flag changes and nothing is enqueued meanwhile. -/
theorem handlerLoop_alone (w : Waking κ) (queue : BufQueue) (s : Uplink κ)
    (hqueue : s.processing.queue = queue) (ha : s.sessionActive = true)
    (hc : s.pouchClosed = false) :
    Alone crypto .handler { w with up := s, handler := .testActive }
      { w with
        up := s.processed (processLoop crypto queue s.header s.transport s.crypto).1
        handler := .testClosing } := by
  induction queue generalizing s with
  | nil =>
    have hempty : handlerStep crypto s .testQueue = (.testClosing, s) := by
      simp [handlerStep, hqueue]
    apply Alone.tested ha hc
    apply Alone.handled hempty
    apply Alone.of_eq
    simp only [Uplink.processed, processLoop, ← hqueue]
  | cons block queue ih =>
    have hsome : handlerStep crypto s .testQueue = (.take, s) := by simp [handlerStep, hqueue]
    let s₁ : Uplink κ := { s with processing := { s.processing with queue } }
    have htake : handlerStep crypto s .take = (.encrypt block, s₁) := by
      simp [handlerStep, hqueue, bufQueueGet, s₁]
    apply Alone.tested ha hc
    apply Alone.handled hsome
    apply Alone.handled htake
    cases he : crypto.encryptBlock s.crypto block with
    | mk encrypted k =>
    cases encrypted with
    | none =>
      have hfail : handlerStep crypto s₁ (.encrypt block) = (.testActive, { s₁ with crypto := k }) := by
        simp [handlerStep, s₁, he]
      apply Alone.handled hfail
      simp only [processLoop, he]
      exact ih { s₁ with crypto := k } rfl ha hc
    | some encrypted =>
      have hencrypt : handlerStep crypto s₁ (.encrypt block) =
          (.submitHeader encrypted, { s₁ with crypto := k }) := by
        simp [handlerStep, s₁, he]
      apply Alone.handled hencrypt
      apply (submit_alone w _ encrypted).trans
      simp only [processLoop, he]
      exact ih _ rfl ha hc

theorem closing_alone (w : Waking κ) (s : Uplink κ) :
    Alone crypto .handler { w with up := s, handler := .testClosing }
      { w with up := { s with pouchClosed := s.pouchClosed || s.pouchClosing }, handler := .idle } := by
  by_cases hc : s.pouchClosing = true
  · have htest : handlerStep crypto s .testClosing = (.setClosed, s) := by simp [handlerStep, hc]
    apply Alone.handled htest
    apply Alone.handled rfl
    exact Alone.of_eq (by simp [hc])
  · have htest : handlerStep crypto s .testClosing = (.idle, s) := by simp [handlerStep, hc]
    have hsame : (s.pouchClosed || s.pouchClosing) = s.pouchClosed := by simp [hc]
    apply Alone.handled htest
    rw [hsame]
    exact Alone.of_eq rfl

/-- A run of the handler that nobody interrupts is process_blocks. -/
theorem process_alone {w : Waking κ} (hidle : w.handler = .idle)
    (hpending : w.up.processing.pending = true) :
    Alone crypto .handler w { w with up := (uplinkStep crypto w.up .process).1 } := by
  let s : Uplink κ := { w.up with processing := { w.up.processing with pending := false } }
  have hstart : handlerStep crypto w.up .idle = (.testActive, s) := by
    simp [handlerStep, hpending, s]
  have hw : w = { w with up := w.up, handler := .idle } := by rw [← hidle]
  rw [hw]
  apply Alone.handled hstart
  cases ha : w.up.sessionActive with
  | false =>
    have htest : handlerStep crypto s .testActive = (.testClosing, s) := by
      simp [handlerStep, s, ha]
    apply Alone.handled htest
    apply (closing_alone w s).trans
    apply Alone.of_eq
    simp [uplinkStep, processBlocks, s, ha]
  | true =>
    cases hc : w.up.pouchClosed with
    | true =>
      have htest : handlerStep crypto s .testActive = (.testOpen, s) := by simp [handlerStep, s, ha]
      have hclosed : handlerStep crypto s .testOpen = (.testClosing, s) := by
        simp [handlerStep, s, hc]
      apply Alone.handled htest
      apply Alone.handled hclosed
      apply (closing_alone w s).trans
      apply Alone.of_eq
      simp [uplinkStep, processBlocks, s, hc]
    | false =>
      apply (handlerLoop_alone w w.up.processing.queue s rfl ha hc).trans
      apply (closing_alone w _).trans
      apply Alone.of_eq
      simp [uplinkStep, processBlocks, s, ha, hc, Uplink.processed]

end

end Pouch
