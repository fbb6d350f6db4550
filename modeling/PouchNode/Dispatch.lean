import PouchNode.DownlinkRoundTrip
import Mathlib.Logic.Function.Basic

/-! Dispatching of downlink streams to services (dispatch.c). Each service remembers the id of
one stream, and the service of the latest match is tried first. -/
namespace Pouch
open Machine

/- DOWNLINK_ID_INVALID is -1, compared as an unsigned int. -/
def downlinkIdInvalid : UInt32 := 0xFFFFFFFF

/- The path is not empty, as its last character is looked at. data_cb is never NULL. -/
structure GoliothDownlinkService where
  path : CString
  path_ne : path.chars ≠ []
  hasStartCb : Bool

namespace GoliothDownlinkService

def isPartial (service : GoliothDownlinkService) : Bool := service.path.chars.getLast? = some 0x2A

def pathLen (service : GoliothDownlinkService) : Nat :=
  if service.isPartial then strlen service.path - 1 else strlen service.path

def isMatch (service : GoliothDownlinkService) (path : CString) : Bool :=
  service.path.chars.take service.pathLen = path.chars.take service.pathLen

def pathRemainder (service : GoliothDownlinkService) (path : CString) : Option Buf :=
  let remainder := path.chars.drop service.pathLen
  if service.isPartial && decide (0 < remainder.length) then some remainder else none

end GoliothDownlinkService

inductive ServiceCall (n : Nat) where
  | start (service : Fin n) (id : UInt32) (pathRemainder : Option Buf)
  | data (service : Fin n) (id : UInt32) (data : Buf) (len : Nat) (isLast : Bool)
  deriving DecidableEq

def ServiceCall.isData {n : Nat} : ServiceCall n → Bool
  | .start _ _ _ => false
  | .data _ _ _ _ _ => true

structure Dispatch (n : Nat) where
  lastSeen : Option (Fin n)
  downlinkId : Fin n → UInt32

def Dispatch.boot (n : Nat) : Dispatch n := ⟨none, fun _ => downlinkIdInvalid⟩

def matchingService (services : List GoliothDownlinkService) (path : CString) :
    Option (Fin services.length) := Fin.find? fun service => (services.get service).isMatch path

namespace Dispatch

def pouchDownlinkStart (services : List GoliothDownlinkService) (streamId : UInt32)
    (path : CString) (d : Dispatch services.length) :
    Dispatch services.length × List (ServiceCall services.length) :=
  match matchingService services path with
  | none => (d, [])
  | some service =>
    (⟨some service, Function.update d.downlinkId service streamId⟩,
      if (services.get service).hasStartCb then
        [.start service streamId ((services.get service).pathRemainder path)]
      else [])

variable {n : Nat}

def activeService (streamId : UInt32) (d : Dispatch n) : Option (Fin n) :=
  let search := Fin.find? fun service => decide (d.downlinkId service = streamId)
  match d.lastSeen with
  | none => search
  | some service => if d.downlinkId service = streamId then some service else search

def pouchDownlinkData (streamId : UInt32) (data : Buf) (len : Nat) (isLast : Bool)
    (d : Dispatch n) : Dispatch n × List (ServiceCall n) :=
  match d.activeService streamId with
  | none => (d, [])
  | some service =>
    (if isLast then ⟨none, Function.update d.downlinkId service downlinkIdInvalid⟩ else d,
      [.data service streamId data len isLast])

end Dispatch

def dispatchStep (services : List GoliothDownlinkService) (d : Dispatch services.length) :
    HandlerCall → Dispatch services.length × List (ServiceCall services.length)
  | .start streamId path _ => d.pouchDownlinkStart services streamId path
  | .data streamId data len isLast => d.pouchDownlinkData streamId data len isLast

abbrev dispatchFinal (services : List GoliothDownlinkService) :
    Dispatch services.length → List HandlerCall → Dispatch services.length :=
  final (dispatchStep services)

/- What the events say, whatever the dispatcher does with them: the streams in flight, with
   the service that matched the start of each; the stream that a service was last matched
   for, if its last fragment has not come; and the service of the latest match, if no matched
   stream has come to its end since. -/
structure Router (n : Nat) where
  flight : UInt32 → Option (Option (Fin n))
  current : Fin n → Option UInt32
  recent : Option (Fin n)

def Router.boot (n : Nat) : Router n := ⟨fun _ => none, fun _ => none, none⟩

def Router.currentId {n : Nat} (r : Router n) (service : Fin n) : UInt32 :=
  (r.current service).getD downlinkIdInvalid

def routerStep (services : List GoliothDownlinkService) (r : Router services.length) :
    HandlerCall → Router services.length × Unit
  | .start streamId path _ =>
    match matchingService services path with
    | none => ({ r with flight := Function.update r.flight streamId (some none) }, ())
    | some service =>
      (⟨Function.update r.flight streamId (some (some service)),
        Function.update r.current service (some streamId), some service⟩, ())
  | .data streamId _ _ isLast =>
    if isLast then
      match r.flight streamId with
      | some (some service) =>
        (⟨Function.update r.flight streamId none, Function.update r.current service none, none⟩, ())
      | _ => ({ r with flight := Function.update r.flight streamId none }, ())
    else (r, ())

abbrev routerFinal (services : List GoliothDownlinkService) :
    Router services.length → List HandlerCall → Router services.length :=
  final (routerStep services)

section
variable {n : Nat}

/- Fragments come after the start of their stream and not after its last fragment. A start
   with the id of a stream in flight abandons that stream. -/
def Router.WellFormed (r : Router n) : HandlerCall → Prop
  | .start _ _ _ => True
  | .data streamId _ _ _ => r.flight streamId ≠ none

def Router.deliveries (r : Router n) : HandlerCall → List (ServiceCall n)
  | .start _ _ _ => []
  | .data streamId data len isLast =>
    match r.flight streamId with
    | some (some service) => [.data service streamId data len isLast]
    | _ => []

/- The service of the stream has not been matched for another one; and it has the latest
   match, or no service before it was last matched for an abandoned stream with the same id.
   For a stream without a service, no service at all was. -/
def Router.Free (r : Router n) (streamId : UInt32) : Option (Option (Fin n)) → Prop
  | some (some service) => r.currentId service = streamId ∧
      (r.recent = some service ∨ ∀ other < service, r.currentId other ≠ streamId)
  | _ => ∀ other, r.currentId other ≠ streamId

def Router.Undisturbed (r : Router n) : HandlerCall → Prop
  | .start _ _ _ => True
  | .data streamId _ _ _ => r.Free streamId (r.flight streamId)

instance (r : Router n) (streamId : UInt32) :
    (route : Option (Option (Fin n))) → Decidable (r.Free streamId route)
  | some (some service) => inferInstanceAs (Decidable (r.currentId service = streamId ∧
      (r.recent = some service ∨ ∀ other < service, r.currentId other ≠ streamId)))
  | some none => inferInstanceAs (Decidable (∀ other, r.currentId other ≠ streamId))
  | none => inferInstanceAs (Decidable (∀ other, r.currentId other ≠ streamId))

instance (r : Router n) : (call : HandlerCall) → Decidable (r.Undisturbed call)
  | .start _ _ _ => inferInstanceAs (Decidable True)
  | .data streamId _ _ _ => inferInstanceAs (Decidable (r.Free streamId (r.flight streamId)))

instance (r : Router n) : (call : HandlerCall) → Decidable (r.WellFormed call)
  | .start _ _ _ => inferInstanceAs (Decidable True)
  | .data streamId _ _ _ => inferInstanceAs (Decidable (r.flight streamId ≠ none))

structure Tracks (d : Dispatch n) (r : Router n) : Prop where
  ids : ∀ service, d.downlinkId service = r.currentId service
  lastSeen : d.lastSeen = r.recent
  latest : ∀ last service, r.recent = some last →
    r.flight (r.currentId last) = some (some service) → service = last

theorem tracks_boot : Tracks (.boot n) (.boot n) where
  ids _ := rfl
  lastSeen := rfl
  latest _ _ h := by cases h

variable {d : Dispatch n} {r : Router n} {streamId : UInt32}

theorem Tracks.active_some (h : Tracks d r) {service : Fin n}
    (hflight : r.flight streamId = some (some service)) :
    d.activeService streamId = some service ↔ r.currentId service = streamId ∧
      (r.recent = some service ∨ ∀ other < service, r.currentId other ≠ streamId) := by
  simp only [Dispatch.activeService, h.ids, h.lastSeen]
  cases hrecent : r.recent with
  | none => simp
  | some last =>
    by_cases hlast : r.currentId last = streamId
    · have heq := h.latest last service hrecent (hlast ▸ hflight)
      simp [hlast, heq]
    · simp only [hlast, if_false, Fin.find?_eq_some_iff, decide_eq_true_eq, decide_eq_false_iff_not,
        Option.some.injEq]
      constructor
      · exact fun hfirst => ⟨hfirst.1, Or.inr hfirst.2⟩
      · rintro ⟨hcurrent, heq | hfirst⟩
        · exact absurd (heq ▸ hcurrent) hlast
        · exact ⟨hcurrent, hfirst⟩

theorem Tracks.active_none (h : Tracks d r) :
    d.activeService streamId = none ↔ ∀ other, r.currentId other ≠ streamId := by
  simp only [Dispatch.activeService, h.ids, h.lastSeen]
  cases hrecent : r.recent with
  | none => simp
  | some last =>
    by_cases hlast : r.currentId last = streamId
    · simp only [hlast, if_true, reduceCtorEq, false_iff, not_forall, not_not]
      exact ⟨last, hlast⟩
    · simp [hlast]

/-- A fragment goes where it should exactly if its stream is undisturbed. -/
theorem Tracks.delivers_iff (h : Tracks d r) (data : Buf) (len : Nat) (isLast : Bool)
    (hwf : r.WellFormed (.data streamId data len isLast)) :
    (d.pouchDownlinkData streamId data len isLast).2 =
        r.deliveries (.data streamId data len isLast) ↔
      r.Undisturbed (.data streamId data len isLast) := by
  simp only [Router.deliveries, Router.Undisturbed, Dispatch.pouchDownlinkData]
  cases hroute : r.flight streamId with
  | none => exact absurd hroute hwf
  | some route =>
    cases route with
    | none =>
      simp only [Router.Free, ← h.active_none]
      cases d.activeService streamId with
      | none => simp
      | some service => simp
    | some service =>
      simp only [Router.Free, ← h.active_some hroute]
      cases d.activeService streamId with
      | none => simp
      | some other => simp

theorem Tracks.data {services : List GoliothDownlinkService} {d : Dispatch services.length}
    {r : Router services.length} (h : Tracks d r) (data : Buf) (len : Nat) (isLast : Bool)
    (hwf : r.WellFormed (.data streamId data len isLast))
    (hright : r.Undisturbed (.data streamId data len isLast)) :
    Tracks (d.pouchDownlinkData streamId data len isLast).1
      (routerStep services r (.data streamId data len isLast)).1 := by
  simp only [Router.Undisturbed] at hright
  simp only [Dispatch.pouchDownlinkData, routerStep]
  cases hroute : r.flight streamId with
  | none => exact absurd hroute hwf
  | some route =>
    cases route with
    | none =>
      rw [hroute] at hright
      rw [(h.active_none).mpr hright]
      cases isLast with
      | false => exact h
      | true =>
        refine ⟨h.ids, h.lastSeen, fun last service hrecent hservice => ?_⟩
        simp only [if_true, Function.update_apply] at hservice hrecent
        split at hservice
        · cases hservice
        · exact h.latest last service hrecent hservice
    | some service =>
      rw [hroute] at hright
      rw [(h.active_some hroute).mpr hright]
      cases isLast with
      | false => exact h
      | true =>
        refine ⟨fun other => ?_, rfl, fun _ _ hrecent => by cases hrecent⟩
        simp only [if_true, Function.update_apply, Router.currentId]
        split
        · rfl
        · exact h.ids other

theorem Tracks.start {services : List GoliothDownlinkService} {d : Dispatch services.length}
    {r : Router services.length} (h : Tracks d r) (path : CString) (contentType : UInt16) :
    Tracks (d.pouchDownlinkStart services streamId path).1
      (routerStep services r (.start streamId path contentType)).1 := by
  simp only [Dispatch.pouchDownlinkStart, routerStep]
  cases matchingService services path with
  | none =>
    refine ⟨h.ids, h.lastSeen, fun last service hrecent hservice => ?_⟩
    simp only [Function.update_apply] at hservice
    split at hservice
    · cases hservice
    · exact h.latest last service hrecent hservice
  | some service =>
    refine ⟨fun other => ?_, rfl, fun last found hrecent hfound => ?_⟩
    · simp only [Function.update_apply, Router.currentId]
      split
      · rfl
      · exact h.ids other
    · obtain rfl : service = last := by simpa using hrecent
      simpa [Router.currentId] using hfound.symm

end

section
variable {services : List GoliothDownlinkService} {d : Dispatch services.length}
  {r : Router services.length}

theorem start_isData (streamId : UInt32) (path : CString) :
    (d.pouchDownlinkStart services streamId path).2.filter ServiceCall.isData = [] := by
  simp only [Dispatch.pouchDownlinkStart]
  split
  · rfl
  · split <;> rfl

theorem data_isData (streamId : UInt32) (data : Buf) (len : Nat) (isLast : Bool) :
    (d.pouchDownlinkData streamId data len isLast).2.filter ServiceCall.isData =
      (d.pouchDownlinkData streamId data len isLast).2 := by
  simp only [Dispatch.pouchDownlinkData]
  split <;> rfl

theorem dispatchStep_right (h : Tracks d r) (call : HandlerCall) (hwf : r.WellFormed call) :
    (dispatchStep services d call).2.filter ServiceCall.isData = r.deliveries call ↔
      r.Undisturbed call := by
  cases call with
  | start streamId path contentType =>
    exact iff_of_true (start_isData streamId path) trivial
  | data streamId data len isLast =>
    rw [dispatchStep, data_isData]
    exact h.delivers_iff data len isLast hwf

theorem dispatchStep_tracks (h : Tracks d r) (call : HandlerCall) (hwf : r.WellFormed call)
    (hright : r.Undisturbed call) :
    Tracks (dispatchStep services d call).1 (routerStep services r call).1 := by
  cases call with
  | start streamId path contentType => exact h.start path contentType
  | data streamId data len isLast => exact h.data data len isLast hwf hright

end

/-- Every fragment is delivered to the service that its stream was matched to, and to no
other, exactly if no fragment comes when its stream is disturbed: by a later stream to the
same service, or by an abandoned one with the same id. -/
theorem routes_by_stream_iff (services : List GoliothDownlinkService) (calls : List HandlerCall)
    (hwf : ∀ u call v, calls = u++call :: v →
      (routerFinal services (.boot _) u).WellFormed call) :
    (∀ u call v, calls = u++call :: v →
      (dispatchStep services (dispatchFinal services (.boot _) u) call).2.filter ServiceCall.isData =
        (routerFinal services (.boot _) u).deliveries call) ↔
    ∀ u call v, calls = u++call :: v → (routerFinal services (.boot _) u).Undisturbed call := by
  have hsteps := steps_iff (both (dispatchStep services) (routerStep services))
    (I := fun w => Tracks w.1 w.2) (A := fun w call => w.2.WellFormed call)
    (R := fun w call => (dispatchStep services w.1 call).2.filter ServiceCall.isData =
      w.2.deliveries call)
    (C := fun w call => w.2.Undisturbed call)
    (fun w call hcall h => dispatchStep_right h call hcall)
    (fun w call hcall h hright => dispatchStep_tracks h call hcall
      ((dispatchStep_right h call hcall).mp hright))
    (.boot _, .boot _) tracks_boot calls (by simpa only [final_both] using hwf)
  simpa only [final_both] using hsteps

def pathB : CString := ⟨[0x62], by decide⟩
def twoServices : List GoliothDownlinkService :=
  [⟨pathA, by decide, false⟩, ⟨pathB, by decide, true⟩]
def nestedCalls : List HandlerCall :=
  [.start 1 pathA 0, .start 2 pathB 0, .data 1 [7] 1 false, .data 2 [8] 1 true, .data 1 [9] 1 true]

theorem routes_nested_streams :
    (∀ u call v, nestedCalls = u++call :: v →
      (dispatchStep twoServices (dispatchFinal twoServices (.boot _) u) call).2.filter
        ServiceCall.isData = (routerFinal twoServices (.boot _) u).deliveries call) ∧
    (outputs (dispatchStep twoServices) (.boot _) nestedCalls).flatten =
      [.start ⟨1, Nat.one_lt_two⟩ 2 none, .data ⟨0, Nat.zero_lt_two⟩ 1 [7] 1 false,
        .data ⟨1, Nat.one_lt_two⟩ 2 [8] 1 true, .data ⟨0, Nat.zero_lt_two⟩ 1 [9] 1 true] := by
  refine ⟨(routes_by_stream_iff twoServices nestedCalls ?_).mpr ?_, by decide⟩
  · simp only [nestedCalls, forall_steps_cons (routerStep twoServices)
      (Q := fun r call => r.WellFormed call)]
    refine ⟨?_, ?_, ?_, ?_, ?_, forall_steps_nil _ _⟩ <;> decide
  · simp only [nestedCalls, forall_steps_cons (routerStep twoServices)
      (Q := fun r call => r.Undisturbed call)]
    refine ⟨?_, ?_, ?_, ?_, ?_, forall_steps_nil _ _⟩ <;> decide

def abandonedCalls : List HandlerCall :=
  [.start 1 pathA 0, .start 1 ⟨[0x7A], by decide⟩ 0, .data 1 [7] 1 true]
def overlappingCalls : List HandlerCall :=
  [.start 1 pathA 0, .start 2 pathA 0, .data 1 [7] 1 true]

theorem streams_not_routed :
    (∀ calls ∈ [abandonedCalls, overlappingCalls], ∀ u call v, calls = u++call :: v →
      (routerFinal twoServices (.boot _) u).WellFormed call) ∧
    (∀ calls ∈ [abandonedCalls, overlappingCalls], ¬ ∀ u call v, calls = u++call :: v →
      (dispatchStep twoServices (dispatchFinal twoServices (.boot _) u) call).2.filter
        ServiceCall.isData = (routerFinal twoServices (.boot _) u).deliveries call) ∧
    (dispatchStep twoServices (dispatchFinal twoServices (.boot _) (abandonedCalls.take 2))
      (.data 1 [7] 1 true)).2 = [.data ⟨0, Nat.zero_lt_two⟩ 1 [7] 1 true] ∧
    (dispatchStep twoServices (dispatchFinal twoServices (.boot _) (overlappingCalls.take 2))
      (.data 1 [7] 1 true)).2 = [] := by
  refine ⟨?_, ?_, by decide, by decide⟩
  · simp only [List.forall_mem_cons, abandonedCalls, overlappingCalls,
      forall_steps_cons (routerStep twoServices) (Q := fun r call => r.WellFormed call)]
    refine ⟨⟨?_, ?_, ?_, forall_steps_nil _ _⟩, ⟨?_, ?_, ?_, forall_steps_nil _ _⟩, by simp⟩ <;> decide
  · simp only [List.forall_mem_cons]
    refine ⟨fun h => ?_, fun h => ?_, by simp⟩
    · exact absurd (h (abandonedCalls.take 2) (.data 1 [7] 1 true) [] rfl) (by decide)
    · exact absurd (h (overlappingCalls.take 2) (.data 1 [7] 1 true) [] rfl) (by decide)

end Pouch
