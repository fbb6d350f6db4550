import PouchNode.Lib.Machine
import Mathlib.Data.List.FinRange

/-! Events for the application (pouch.c): a bounded message queue that pouch_event_emit
fills without waiting, and a work item that drains it. -/
namespace Pouch
open Machine

inductive PouchEvent where
  | sessionStart | sessionEnd
  deriving DecidableEq, Repr

structure EventQueue (n : Nat) where
  queue : List PouchEvent
  pending : Bool
  running : Bool
  calls : List (Fin n × PouchEvent)

def EventQueue.boot (n : Nat) : EventQueue n := ⟨[], false, false, []⟩

def kMsgqPut (depth : Nat) (queue : List PouchEvent) (event : PouchEvent) :
    Bool × List PouchEvent :=
  if queue.length < depth then (true, queue++[event]) else (false, queue)

section
variable {n : Nat}

/- The result of k_msgq_put is not looked at. -/
def pouchEventEmit (depth : Nat) (s : EventQueue n) (event : PouchEvent) : EventQueue n :=
  { s with queue := (kMsgqPut depth s.queue event).2, pending := true }

def dispatchPass (s : EventQueue n) : EventQueue n :=
  match s.queue with
  | [] => { s with running := false }
  | event :: queue =>
    { s with queue, calls := s.calls++(List.finRange n).map fun handler => (handler, event) }

inductive EventOp where
  | emit (event : PouchEvent)
  /- The work queue starts dispatch_events. -/
  | dispatch
  | pass
  deriving DecidableEq

def eventStep (depth : Nat) (s : EventQueue n) : EventOp → EventQueue n × Unit
  | .emit event => (pouchEventEmit depth s event, ())
  | .dispatch =>
    (if s.pending && !s.running then { s with pending := false, running := true } else s, ())
  | .pass => (if s.running then dispatchPass s else s, ())

abbrev EventTrace (n : Nat) := List (Event (EventQueue n) EventOp Unit)

def emissions (tr : EventTrace n) : List (List PouchEvent × PouchEvent) :=
  tr.filterMap fun e =>
    match e.input with
    | .emit event => some (e.state.queue, event)
    | .dispatch => none
    | .pass => none

def emittedEvents (tr : EventTrace n) : List PouchEvent := (emissions tr).map Prod.snd

def FindsRoom (depth : Nat) (e : List PouchEvent × PouchEvent) : Prop := e.1.length < depth

instance (depth : Nat) : DecidablePred (FindsRoom depth) :=
  fun e => inferInstanceAs (Decidable (e.1.length < depth))

def EventQueue.callsOf (s : EventQueue n) (handler : Fin n) : List PouchEvent :=
  (s.calls.filter fun c => c.1 = handler).map Prod.snd

structure Dispatched (depth : Nat) (tr : EventTrace n) (s : EventQueue n) : Prop where
  calls : ∀ handler, s.callsOf handler++s.queue =
    ((emissions tr).filter fun e => FindsRoom depth e).map Prod.snd
  armed : s.queue ≠ [] → s.pending = true ∨ s.running = true

theorem dispatched_boot (depth : Nat) : Dispatched depth [] (EventQueue.boot n) where
  calls _ := rfl
  armed hne := absurd rfl hne

theorem callsOf_pass (s : EventQueue n) (event : PouchEvent) (queue : List PouchEvent)
    (hq : s.queue = event :: queue) (handler : Fin n) :
    (dispatchPass s).callsOf handler = s.callsOf handler++[event] := by
  have hone : (List.finRange n).filter (fun h => h = handler) = [handler] := by
    have hcount := List.count_eq_one_of_mem (List.nodup_finRange n) (List.mem_finRange handler)
    rw [List.filter_eq handler, hcount]
    rfl
  simp only [EventQueue.callsOf, dispatchPass, hq, List.filter_append, List.map_append,
    List.filter_map]
  congr 1
  have hcomp : ((fun c : Fin n × PouchEvent => decide (c.1 = handler)) ∘ fun h => (h, event)) =
      fun h => decide (h = handler) := rfl
  rw [hcomp, hone]
  rfl

section
variable {depth : Nat} {tr : EventTrace n} {s : EventQueue n}

theorem emissions_snoc_emit (event : PouchEvent) :
    emissions (tr++[Machine.event (eventStep depth) s (.emit event)]) =
      emissions tr++[(s.queue, event)] := by
  simp [emissions, Machine.event]

theorem emissions_snoc_other (depth : Nat) (tr : EventTrace n) (s : EventQueue n) {op : EventOp}
    (hop : ∀ event, op ≠ .emit event) :
    emissions (tr++[Machine.event (eventStep depth) s op]) = emissions tr := by
  cases op with
  | emit event => exact absurd rfl (hop event)
  | dispatch => simp [emissions, Machine.event]
  | pass => simp [emissions, Machine.event]

theorem Dispatched.emit (h : Dispatched depth tr s) (event : PouchEvent) :
    Dispatched depth (tr++[Machine.event (eventStep depth) s (.emit event)])
      (eventStep depth s (.emit event)).1 := by
  constructor
  · intro handler
    have hcalls := h.calls handler
    rw [emissions_snoc_emit, List.filter_append, List.map_append, ← hcalls]
    by_cases hroom : s.queue.length < depth
    · simp [eventStep, pouchEventEmit, kMsgqPut, hroom, FindsRoom, EventQueue.callsOf]
    · simp [eventStep, pouchEventEmit, kMsgqPut, hroom, FindsRoom, EventQueue.callsOf]
  · intro _
    exact Or.inl rfl

theorem Dispatched.step (h : Dispatched depth tr s) (op : EventOp) :
    Dispatched depth (tr++[Machine.event (eventStep depth) s op]) (eventStep depth s op).1 := by
  cases op with
  | emit event => exact h.emit event
  | dispatch =>
    have hsame : emissions (tr++[Machine.event (eventStep depth) s .dispatch]) = emissions tr := by
      apply emissions_snoc_other
      intro event he
      cases he
    by_cases hgo : (s.pending && !s.running) = true
    · simp only [eventStep, hgo, if_true]
      refine ⟨?_, fun _ => Or.inr rfl⟩
      rw [hsame]
      exact h.calls
    · simp only [eventStep, hgo]
      refine ⟨?_, h.armed⟩
      rw [hsame]
      exact h.calls
  | pass =>
    have hsame : emissions (tr++[Machine.event (eventStep depth) s .pass]) = emissions tr := by
      apply emissions_snoc_other
      intro event he
      cases he
    cases hrun : s.running with
    | false =>
      simp only [eventStep, hrun]
      refine ⟨?_, h.armed⟩
      rw [hsame]
      exact h.calls
    | true =>
      simp only [eventStep, hrun, if_true]
      cases hq : s.queue with
      | nil =>
        refine ⟨?_, fun hne => absurd (by simp [dispatchPass, hq]) hne⟩
        rw [hsame]
        simpa [dispatchPass, hq, EventQueue.callsOf] using h.calls
      | cons event queue =>
        refine ⟨?_, fun _ => Or.inr (by simp [dispatchPass, hq, hrun])⟩
        intro handler
        have hcalls := h.calls handler
        rw [hq] at hcalls
        rw [hsame, callsOf_pass s event queue hq, ← hcalls]
        simp [dispatchPass, hq]

end
end

theorem dispatched_run {n : Nat} (depth : Nat) (ops : List EventOp) :
    Dispatched depth (trace (eventStep depth) (EventQueue.boot n) ops)
      (final (eventStep depth) (EventQueue.boot n) ops) :=
  trace_invariant (eventStep depth) (A := fun _ => True) (P := Dispatched depth) _
    (dispatched_boot depth) (fun _ _ op _ h => h.step op) ops (fun _ _ => trivial)

/-- After any run, what a handler has been called with, and then what still waits, are the
emitted events that found fewer than depth events waiting, in order; these are all of
the emitted events exactly if each of them did. Nothing waits without the work item
being pending or running. -/
theorem events_dispatched_iff {n : Nat} (depth : Nat) (ops : List EventOp) :
    let tr := trace (eventStep depth) (EventQueue.boot n) ops
    let s := final (eventStep depth) (EventQueue.boot n) ops
    (s.queue ≠ [] → s.pending = true ∨ s.running = true) ∧
    ∀ handler, s.callsOf handler++s.queue =
        ((emissions tr).filter fun e => FindsRoom depth e).map Prod.snd ∧
      (s.callsOf handler++s.queue = emittedEvents tr ↔ ∀ e ∈ emissions tr, FindsRoom depth e) := by
  intro tr s
  have hrun : Dispatched depth tr s := dispatched_run depth ops
  refine ⟨hrun.armed, ?_⟩
  intro handler
  refine ⟨hrun.calls handler, ?_⟩
  rw [hrun.calls handler, emittedEvents]
  constructor
  · intro heq e he
    have hlen := congrArg List.length heq
    rw [List.length_map, List.length_map, List.length_filter_eq_length_iff] at hlen
    simpa using hlen e he
  · intro hall
    rw [List.filter_eq_self.mpr]
    intro e he
    simpa using hall e he

/-- A session starts and ends before the application is called, in a queue for one event:
the end is never seen. -/
theorem end_event_lost :
    (final (eventStep 1) (EventQueue.boot 1)
      [.emit .sessionStart, .emit .sessionEnd, .dispatch, .pass, .pass]).queue = [] ∧
    (final (eventStep 1) (EventQueue.boot 1)
      [.emit .sessionStart, .emit .sessionEnd, .dispatch, .pass, .pass]).callsOf 0 =
      [.sessionStart] ∧
    emittedEvents (trace (eventStep 1) (EventQueue.boot 1)
      [.emit .sessionStart, .emit .sessionEnd, .dispatch, .pass, .pass]) =
      [.sessionStart, .sessionEnd] :=
  ⟨rfl, rfl, rfl⟩

end Pouch
