import PouchNode.Ota

/-! What the receive callback of a component is given of a stream. Whether a fragment is
given to it is decided fragment by fragment, by the mark the component has at that moment. -/
namespace Pouch
open Machine

section
variable {components : List RegisteredComponent}

structure Ota.Listening (s : Ota components.length) (i : Fin components.length) : Prop where
  valid : downlinkIdInvalid ≠ s.download.downlinkId
  name : (components.get i).name.chars = s.download.name
  marked : ∀ j ≤ i, (components.get j).name.chars = s.download.name →
    (s.data j).state = .downloading

instance (s : Ota components.length) : DecidablePred s.Listening := fun i =>
  decidable_of_iff (downlinkIdInvalid ≠ s.download.downlinkId ∧
    (components.get i).name.chars = s.download.name ∧
    ∀ j ≤ i, (components.get j).name.chars = s.download.name → (s.data j).state = .downloading)
    ⟨fun h => ⟨h.1, h.2.1, h.2.2⟩, fun h => ⟨h.valid, h.name, h.marked⟩⟩

end

/- What can be seen from outside: the component stream in flight, the bytes of the latest one
   that have come, what each component was given of them, and which components missed some. -/
structure OtaLog (n : Nat) where
  current : Option UInt32
  received : Buf
  given : Fin n → Buf
  missed : Fin n → Bool

def OtaLog.boot (n : Nat) : OtaLog n := ⟨none, [], fun _ => [], fun _ => false⟩

def OtaCall.bytesTo {n : Nat} (i : Fin n) : OtaCall n → Buf
  | .receive call => if call.component = i then call.data else []
  | .manifest _ => []

section
variable {components : List RegisteredComponent}

def OtaLog.next (log : OtaLog components.length) (s : Ota components.length)
    (out : Except OtaFault (List (OtaCall components.length))) : OtaOp → OtaLog components.length
  | .start streamId _ _ => ⟨some streamId, [], fun _ => [], fun _ => false⟩
  | .data streamId data isLast =>
    if log.current = some streamId.val then
      { current := if isLast then none else log.current
        received := log.received++data
        given := fun i =>
          match out with
          | .error _ => log.given i
          | .ok calls => log.given i++calls.flatMap (OtaCall.bytesTo i)
        missed := fun i => log.missed i || (!data.isEmpty && !decide (s.Listening i)) }
    else log
  | .manifest _ _ _ => log
  | .mark _ _ => log

/- The call is about the fragment that has come, and it is at its place in the stream; there is
   nothing before it, or the component has been given all of that; and the last fragment is
   only given to a component that has been given all others. -/
structure Contiguous (log : OtaLog components.length) (op : OtaOp)
    (call : ReceiveCall components.length) : Prop where
  fragment : ∃ streamId : OtaStreamId, log.current = some streamId.val ∧
    op = .data streamId call.data call.isLast
  len : call.len = call.data.length
  offset : call.offset = log.received.length
  covered : 0 < call.offset → log.given call.component = log.received
  complete : call.isLast = true → log.given call.component = log.received

def GivesContiguous (cfg : OtaConfig) (w : OtaNode components.length × OtaLog components.length)
    (op : OtaOp) : Prop :=
  ∃ out, (otaStep cfg w.1 op).2 = .ok out ∧
    ∀ call, OtaCall.receive call ∈ out → Contiguous w.2 op call

def otaWatch (cfg : OtaConfig) (w : OtaNode components.length × OtaLog components.length)
    (op : OtaOp) : (OtaNode components.length × OtaLog components.length) ×
      Except OtaFault (List (OtaCall components.length)) :=
  let (s, out) := otaStep cfg w.1 op
  ((s, w.2.next w.1.ota out op), out)

/- The condition on a step. A path names a component, with a name that fits; and a component
   that a fragment is meant for has missed nothing of the stream, of which less has come than
   a size_t can count. -/
def OtaInTime (cfg : OtaConfig) (w : OtaNode components.length × OtaLog components.length) :
    OtaOp → Prop
  | .start _ rest _ => rest.chars ≠ [] ∧
      ∀ nameLen, rest.chars.idxOf? 0x40 = some nameLen → nameLen ≤ cfg.maxPackageNameLen
  | .data streamId _ _ => w.2.current = some streamId.val → ∀ i, w.1.ota.Listening i →
      w.2.missed i = false ∧ w.2.received.length < 2^cfg.sizeBits
  | .manifest _ _ _ => True
  | .mark _ _ => True

def Ota.ListensIn (s : Ota components.length) (name : Buf) (l : List (Fin components.length))
    (i : Fin components.length) : Prop :=
  (components.get i).name.chars = name ∧
    ∀ j ∈ l, j ≤ i → (components.get j).name.chars = name → (s.data j).state = .downloading

instance (s : Ota components.length) (name : Buf) (l : List (Fin components.length)) :
    DecidablePred (s.ListensIn name l) := fun _ => inferInstanceAs (Decidable (_ ∧ _))

/-- The loop over the components calls those that are listening, in their order. -/
theorem receiveLoop_eq (s : Ota components.length) (name : Buf) (offset : Nat) (data : Buf)
    (len : Nat) (isLast : Bool) (l : List (Fin components.length)) (hl : l.Pairwise (· < ·)) :
    (receiveLoop s name offset data len isLast l).2 =
      (l.filter fun i => s.ListensIn name l i).map
        fun i => .receive ⟨i, data, offset, len, isLast⟩ := by
  induction l with
  | nil => rfl
  | cons k l ih =>
    obtain ⟨hk, hl⟩ := List.pairwise_cons.mp hl
    have hself : ∀ j ∈ l, ¬ j ≤ k := fun j hj => not_le.mpr (hk j hj)
    have hrest : ((components.get k).name.chars = name → (s.data k).state = .downloading) →
        l.filter (fun i => decide (s.ListensIn name (k :: l) i)) =
          l.filter (fun i => decide (s.ListensIn name l i)) := by
      intro hmarked
      apply List.filter_congr
      intro i hi
      rw [decide_eq_decide, Ota.ListensIn, List.forall_mem_cons]
      exact and_congr_right fun _ => ⟨And.right, fun h => ⟨fun _ => hmarked, h⟩⟩
    by_cases hname : (components.get k).name.chars = name
    · by_cases hstate : (s.data k).state = .downloading
      · have hfirst : s.ListensIn name (k :: l) k := by
          refine ⟨hname, fun j hj hle _ => ?_⟩
          cases List.mem_cons.mp hj with
          | inl heq => rw [heq, hstate]
          | inr hmem => exact absurd hle (hself j hmem)
        simp only [receiveLoop, hname, hstate, if_true]
        rw [List.filter_cons_of_pos (by exact decide_eq_true hfirst), hrest fun _ => hstate,
          List.map_cons, ih hl]
      · simp only [receiveLoop, hname, hstate, if_true, if_false]
        symm
        rw [List.map_eq_nil_iff, List.filter_eq_nil_iff]
        intro i hi hlistens
        have hle : k ≤ i := by
          cases List.mem_cons.mp hi with
          | inl heq => exact heq.ge
          | inr hmem => exact (hk i hmem).le
        exact hstate ((of_decide_eq_true hlistens).2 k List.mem_cons_self hle hname)
    · have hfirst : ¬ s.ListensIn name (k :: l) k := fun h => hname h.1
      simp only [receiveLoop, hname, if_false]
      rw [List.filter_cons_of_neg (by simpa using hfirst), hrest fun h => absurd h hname, ih hl]

section
variable (cfg : OtaConfig) (s : Ota components.length) (data : Buf) (len : Nat) (isLast : Bool)

/-- A fragment is given to exactly the listening components. -/
theorem otaReceiveComponentData_calls :
    (otaReceiveComponentData cfg data len isLast s).2 =
      ((List.finRange components.length).filter fun i => s.Listening i).map
        fun i => .receive ⟨i, data, s.download.offset, len, isLast⟩ := by
  by_cases hv : downlinkIdInvalid ≠ s.download.downlinkId
  · have hlistens : ∀ i, s.ListensIn s.download.name (List.finRange components.length) i ↔
        s.Listening i := by
      intro i
      constructor
      · intro h
        exact ⟨hv, h.1, fun j hj hname => h.2 j (List.mem_finRange j) hj hname⟩
      · intro h
        exact ⟨h.name, fun j _ hj hname => h.marked j hj hname⟩
    simp only [otaReceiveComponentData, hv, not_false_eq_true, ne_eq, if_true,
      goliothOtaReceiveComponent, receiveLoop_eq _ _ _ _ _ _ _ (List.pairwise_lt_finRange _),
      hlistens]
  · have hnone : ∀ i, ¬ s.Listening i := fun i h => hv h.valid
    simp [otaReceiveComponentData, hv, hnone]

theorem mem_otaReceiveComponentData (call : ReceiveCall components.length) :
    OtaCall.receive call ∈ (otaReceiveComponentData cfg data len isLast s).2 ↔
      s.Listening call.component ∧
        call = ⟨call.component, data, s.download.offset, len, isLast⟩ := by
  simp only [otaReceiveComponentData_calls, List.mem_map, List.mem_filter, List.mem_finRange,
    true_and, decide_eq_true_eq, OtaCall.receive.injEq]
  constructor
  · rintro ⟨i, hi, rfl⟩
    exact ⟨hi, rfl⟩
  · rintro ⟨hi, hcall⟩
    exact ⟨call.component, hi, hcall.symm⟩

theorem flatMap_bytesTo (i : Fin components.length) (offset : Nat)
    (l : List (Fin components.length)) (hl : l.Nodup) :
    (l.map fun k => OtaCall.receive ⟨k, data, offset, len, isLast⟩).flatMap (OtaCall.bytesTo i) =
      if i ∈ l then data else [] := by
  induction l with
  | nil => rfl
  | cons k l ih =>
    obtain ⟨hk, hl⟩ := List.nodup_cons.mp hl
    rw [List.map_cons, List.flatMap_cons, ih hl]
    by_cases hi : k = i
    · subst hi
      simp [OtaCall.bytesTo, hk]
    · simp [OtaCall.bytesTo, hi, Ne.symm hi]

theorem bytesTo_otaReceiveComponentData (i : Fin components.length) :
    (otaReceiveComponentData cfg data len isLast s).2.flatMap (OtaCall.bytesTo i) =
      if s.Listening i then data else [] := by
  rw [otaReceiveComponentData_calls, flatMap_bytesTo _ _ _ _ _ _ ((List.nodup_finRange _).filter _)]
  simp

end

def componentService : Fin otaServices.length := ⟨0, by decide⟩
def manifestService : Fin otaServices.length := ⟨1, by decide⟩

theorem forall_otaServices {P : Fin otaServices.length → Prop} :
    (∀ service, P service) ↔ P componentService ∧ P manifestService := by
  constructor
  · exact fun h => ⟨h _, h _⟩
  · rintro ⟨hcomponent, hmanifest⟩ ⟨k, hk⟩
    have hlen : otaServices.length = 2 := rfl
    have hcases : k = 0 ∨ k = 1 := by omega
    cases hcases with
    | inl h => subst h; exact hcomponent
    | inr h => subst h; exact hmanifest

theorem matchingService_component (rest : CString) :
    matchingService otaServices (componentPath rest) = some componentService := by
  rw [matchingService, Fin.find?_eq_some_iff]
  refine ⟨?_, fun j hj => absurd hj (Nat.not_lt_zero _)⟩
  have hpath : (componentPath rest).chars = componentPrefix++rest.chars := rfl
  have hlen : otaComponent.pathLen = componentPrefix.length := by decide
  have hpattern : otaComponent.path.chars.take otaComponent.pathLen = componentPrefix := by decide
  show decide (otaComponent.path.chars.take otaComponent.pathLen =
    (componentPath rest).chars.take otaComponent.pathLen) = true
  rw [hpattern, hpath, hlen, List.take_left, decide_eq_true_eq]

theorem pathRemainder_component (rest : CString) :
    otaComponent.pathRemainder (componentPath rest) =
      if rest.chars = [] then none else some rest.chars := by
  have hlen : otaComponent.pathLen = componentPrefix.length := by decide
  have hpartial : otaComponent.isPartial = true := by decide
  have hpath : (componentPath rest).chars = componentPrefix++rest.chars := rfl
  simp only [GoliothDownlinkService.pathRemainder, hlen, hpath, List.drop_left, hpartial,
    Bool.true_and, decide_eq_true_eq, List.length_pos_iff]
  by_cases hrest : rest.chars = []
  · simp [hrest]
  · simp [hrest]

structure OtaInv (cfg : OtaConfig) (w : OtaNode components.length × OtaLog components.length) :
    Prop where
  component : w.1.dispatch.downlinkId componentService = w.2.current.getD downlinkIdInvalid
  manifest : w.1.dispatch.downlinkId manifestService = downlinkIdInvalid
  lastSeen : w.1.dispatch.lastSeen ≠ some manifestService
  offset : w.2.current ≠ none → downlinkIdInvalid ≠ w.1.ota.download.downlinkId →
    w.1.ota.download.offset = w.2.received.length % 2^cfg.sizeBits
  kept : ∀ i, w.2.missed i = false → w.2.given i = w.2.received
  short : ∀ i, w.2.missed i = true → (w.2.given i).length < w.2.received.length

section
variable {cfg : OtaConfig} {s : OtaNode components.length} {log : OtaLog components.length}

theorem otaInv_boot (cfg : OtaConfig) (components : List RegisteredComponent) :
    OtaInv cfg (OtaNode.boot cfg components, OtaLog.boot components.length) where
  component := rfl
  manifest := rfl
  lastSeen := fun h => (by cases h)
  offset := fun h => absurd rfl h
  kept _ _ := rfl
  short _ h := by cases h

theorem OtaInv.lastSeen_cases (h : OtaInv cfg (s, log)) :
    s.dispatch.lastSeen = none ∨ s.dispatch.lastSeen = some componentService := by
  cases hl : s.dispatch.lastSeen with
  | none => exact Or.inl rfl
  | some service =>
    have hne : service ≠ manifestService := fun heq => h.lastSeen (heq ▸ hl)
    have hservice : ∀ service, service ≠ manifestService → service = componentService :=
      forall_otaServices.mpr ⟨fun _ => rfl, fun hne => absurd rfl hne⟩
    exact Or.inr (congrArg some (hservice service hne))

theorem OtaInv.activeService (h : OtaInv cfg (s, log)) (streamId : OtaStreamId) :
    s.dispatch.activeService streamId =
      if log.current = some streamId.val then some componentService else none := by
  have hcomponent := h.component
  have hmanifest := h.manifest
  have hlastSeen := h.lastSeen_cases
  simp only at hcomponent hmanifest
  by_cases hcurrent : log.current = some streamId.val
  · have hid : s.dispatch.downlinkId componentService = streamId := by simp [hcomponent, hcurrent]
    rw [if_pos hcurrent]
    simp only [Dispatch.activeService]
    cases hlastSeen with
    | inl hl =>
      rw [hl]
      exact Fin.find?_eq_some_iff.mpr ⟨by simp [hid], fun j hj => absurd hj (Nat.not_lt_zero _)⟩
    | inr hl => simp [hl, hid]
  · have hid : s.dispatch.downlinkId componentService ≠ streamId := by
      rw [hcomponent]
      cases hc : log.current with
      | none => exact fun heq => streamId.property heq.symm
      | some id => exact fun heq => hcurrent (by rw [hc, ← heq, Option.getD_some])
    have hnone : Fin.find? (fun service =>
        decide (s.dispatch.downlinkId service = streamId.val)) = none := by
      rw [Fin.find?_eq_none_iff, forall_otaServices]
      refine ⟨by simpa using hid, ?_⟩
      rw [hmanifest]
      simpa using streamId.property.symm
    rw [if_neg hcurrent]
    simp only [Dispatch.activeService]
    cases hlastSeen with
    | inl hl => rw [hl]; exact hnone
    | inr hl => simp [hl, hid, hnone]

theorem OtaInv.data_current (h : OtaInv cfg (s, log)) {streamId : OtaStreamId}
    (hcurrent : log.current = some streamId.val) (data : Buf) (isLast : Bool) :
    otaStep cfg s (.data streamId data isLast) =
      (⟨if isLast then ⟨none, Function.update s.dispatch.downlinkId componentService
            downlinkIdInvalid⟩ else s.dispatch,
          (otaReceiveComponentData cfg data data.length isLast s.ota).1⟩,
        .ok (otaReceiveComponentData cfg data data.length isLast s.ota).2) := by
  have hactive := h.activeService streamId
  have hval : componentService.val = 0 := rfl
  rw [if_pos hcurrent] at hactive
  simp only [otaStep, OtaNode.event, dispatchStep, Dispatch.pouchDownlinkData, hactive,
    otaServiceCalls, otaServiceCall, hval, if_true, List.append_nil]

theorem OtaInv.data_other (h : OtaInv cfg (s, log)) {streamId : OtaStreamId}
    (hcurrent : log.current ≠ some streamId.val) (data : Buf) (isLast : Bool) :
    otaStep cfg s (.data streamId data isLast) = (s, .ok []) := by
  have hactive := h.activeService streamId
  rw [if_neg hcurrent] at hactive
  simp only [otaStep, OtaNode.event, dispatchStep, Dispatch.pouchDownlinkData, hactive,
    otaServiceCalls]

theorem otaStep_start (cfg : OtaConfig) (s : OtaNode components.length) (streamId : OtaStreamId)
    (rest : CString) (contentType : UInt16) :
    otaStep cfg s (.start streamId rest contentType) =
      match otaReceiveComponentStart cfg streamId
        (if rest.chars = [] then none else some rest.chars) s.ota.download with
      | .error fault => (s, .error fault)
      | .ok download =>
        (⟨⟨some componentService, Function.update s.dispatch.downlinkId componentService streamId⟩,
          { s.ota with download }⟩, .ok []) := by
  have hservice : otaServices.get componentService = otaComponent := rfl
  have hcb : otaComponent.hasStartCb = true := rfl
  have hval : componentService.val = 0 := rfl
  simp only [otaStep, OtaNode.event, dispatchStep, Dispatch.pouchDownlinkStart,
    matchingService_component, hservice, hcb, if_true, pathRemainder_component, otaServiceCalls,
    otaServiceCall, hval]
  cases otaReceiveComponentStart cfg streamId (if rest.chars = [] then none else some rest.chars)
    s.ota.download with
  | error fault => rfl
  | ok download => rfl

/-- The start of a component stream is well defined exactly if the path has a remainder and
the name in it fits. What is recorded then begins at offset 0. -/
theorem otaReceiveComponentStart_cases (cfg : OtaConfig) (id : UInt32) (rest : Buf)
    (d : ComponentDownload) :
    ((rest ≠ [] ∧ ∀ nameLen, rest.idxOf? 0x40 = some nameLen → nameLen ≤ cfg.maxPackageNameLen) ∧
      ∃ download, otaReceiveComponentStart cfg id (if rest = [] then none else some rest) d =
        .ok download ∧ (downlinkIdInvalid ≠ download.downlinkId → download.offset = 0)) ∨
    (¬ (rest ≠ [] ∧ ∀ nameLen, rest.idxOf? 0x40 = some nameLen →
        nameLen ≤ cfg.maxPackageNameLen) ∧
      ∃ fault, otaReceiveComponentStart cfg id (if rest = [] then none else some rest) d =
        .error fault) := by
  by_cases hrest : rest = []
  · exact Or.inr ⟨fun h => h.1 hrest, .nullRemainder, by simp [otaReceiveComponentStart, hrest]⟩
  rw [if_neg hrest]
  cases hat : rest.idxOf? 0x40 with
  | none =>
    refine Or.inl ⟨⟨hrest, fun _ h => (by cases h)⟩, { d with downlinkId := downlinkIdInvalid }, ?_,
      fun h => absurd rfl h⟩
    simp [otaReceiveComponentStart, hat]
  | some nameLen =>
    by_cases hlong : cfg.maxPackageNameLen < nameLen
    · refine Or.inr ⟨fun h => absurd (h.2 nameLen rfl) (not_le.mpr hlong), .nameOverflow, ?_⟩
      simp [otaReceiveComponentStart, hat, hlong]
    · refine Or.inl ⟨⟨hrest, fun k hk => ?_⟩, ⟨id, 0, rest.take nameLen,
        (rest.drop (nameLen + 1)).take cfg.maxVersionLen⟩, ?_, fun _ => rfl⟩
      · cases hk
        exact not_lt.mp hlong
      · simp [otaReceiveComponentStart, hat, hlong]

/-- A manifest neither touches the download nor gives anything to a receive callback. -/
theorem otaReceiveManifest_keeps (cfg : OtaConfig) (calls : List ManifestCall)
    (s : Ota components.length) :
    (otaReceiveManifest cfg calls s).1.download = s.download ∧
      ∀ call, OtaCall.receive call ∉ (otaReceiveManifest cfg calls s).2 := by
  induction calls generalizing s with
  | nil => exact ⟨rfl, fun _ h => (by cases h)⟩
  | cons call calls ih =>
    cases call with
    | receiveOne component => exact ih (goliothOtaManifestReceiveOne cfg component s)
    | complete =>
      refine ⟨(ih s).1, fun call hmem => ?_⟩
      cases List.mem_cons.mp hmem with
      | inl heq => cases heq
      | inr hrest => exact (ih s).2 call hrest

theorem otaStep_manifest (cfg : OtaConfig) (s : OtaNode components.length) (contentType : UInt16)
    (data : Buf) (calls : List ManifestCall) :
    otaStep cfg s (.manifest contentType data calls) =
      (⟨⟨none, Function.update s.dispatch.downlinkId manifestService downlinkIdInvalid⟩,
        (otaReceiveManifest cfg calls s.ota).1⟩, .ok (otaReceiveManifest cfg calls s.ota).2) := by
  have hmatch : matchingService otaServices otaManifestPath = some manifestService := by decide
  have hcb : (otaServices.get manifestService).hasStartCb = false := rfl
  have hval : manifestService.val ≠ 0 := Nat.one_ne_zero
  have hactive : Dispatch.activeService 0 ⟨some manifestService,
      Function.update s.dispatch.downlinkId manifestService 0⟩ = some manifestService := by
    simp [Dispatch.activeService]
  simp only [otaStep, OtaNode.event, dispatchStep, Dispatch.pouchDownlinkStart, hmatch, hcb,
    Bool.false_eq_true, if_false, otaServiceCalls, Dispatch.pouchDownlinkData, hactive, if_true,
    otaServiceCall, hval, List.append_nil, Function.update_idem]

theorem goliothOtaSetStatus_download (name : CString) (state : GoliothOtaState)
    (s : Ota components.length) : (goliothOtaSetStatus name state s).2.download = s.download := by
  unfold goliothOtaSetStatus
  cases Fin.find? fun i => decide ((components.get i).name = name) with
  | none => rfl
  | some i => rfl

theorem otaStep_mark (cfg : OtaConfig) (s : OtaNode components.length) (name : CString)
    (mark : OtaMark) :
    ∃ ota, otaStep cfg s (.mark name mark) = ({ s with ota }, .ok []) ∧
      ota.download = s.ota.download := by
  cases mark with
  | forDownload => exact ⟨_, rfl, goliothOtaSetStatus_download name .downloading s.ota⟩
  | idle => exact ⟨_, rfl, goliothOtaSetStatus_download name .idle s.ota⟩
  | updating => exact ⟨_, rfl, goliothOtaSetStatus_download name .updating s.ota⟩

theorem OtaInv.given_le (h : OtaInv cfg (s, log)) (i : Fin components.length) :
    (log.given i).length ≤ log.received.length := by
  cases hm : log.missed i with
  | false => exact (congrArg List.length (h.kept i hm)).le
  | true => exact (h.short i hm).le

/-- A fragment of the stream in flight is given to listening components only as a next piece
exactly if none of them has missed anything and the offset has not wrapped around. -/
theorem OtaInv.data_iff (h : OtaInv cfg (s, log)) {streamId : OtaStreamId}
    (hcurrent : log.current = some streamId.val) (data : Buf) (isLast : Bool) :
    (∀ call, OtaCall.receive call ∈
        (otaReceiveComponentData cfg data data.length isLast s.ota).2 →
      Contiguous log (.data streamId data isLast) call) ↔
    ∀ i, s.ota.Listening i → log.missed i = false ∧ log.received.length < 2^cfg.sizeBits := by
  have hoffset : ∀ i, s.ota.Listening i →
      s.ota.download.offset = log.received.length % 2^cfg.sizeBits := fun i hi =>
    h.offset (by simp [hcurrent]) hi.valid
  constructor
  · intro hall i hi
    have hc := hall ⟨i, data, s.ota.download.offset, data.length, isLast⟩
      ((mem_otaReceiveComponentData cfg s.ota data data.length isLast _).mpr ⟨hi, rfl⟩)
    have hplace : s.ota.download.offset = log.received.length := hc.offset
    have hlt : log.received.length < 2^cfg.sizeBits := by
      rw [← hplace, hoffset i hi]
      exact Nat.mod_lt _ (Nat.two_pow_pos _)
    refine ⟨?_, hlt⟩
    cases hm : log.missed i with
    | false => rfl
    | true =>
      have hshort : (log.given i).length < log.received.length := h.short i hm
      have hgiven : log.given i = log.received :=
        hc.covered (by show 0 < s.ota.download.offset; omega)
      simp [hgiven] at hshort
  · intro hall call hmem
    obtain ⟨hi, hcall⟩ :=
      (mem_otaReceiveComponentData cfg s.ota data data.length isLast call).mp hmem
    obtain ⟨hm, hlt⟩ := hall _ hi
    have hgiven := h.kept _ hm
    rw [hcall]
    refine ⟨⟨streamId, hcurrent, rfl⟩, rfl, ?_, fun _ => hgiven, fun _ => hgiven⟩
    show s.ota.download.offset = log.received.length
    rw [hoffset _ hi, Nat.mod_eq_of_lt hlt]

theorem givesContiguous_iff (h : OtaInv cfg (s, log)) (op : OtaOp) :
    GivesContiguous cfg (s, log) op ↔ OtaInTime cfg (s, log) op := by
  cases op with
  | start streamId rest contentType =>
    simp only [GivesContiguous, OtaInTime, otaStep_start]
    cases otaReceiveComponentStart_cases cfg streamId rest.chars s.ota.download with
    | inl hr =>
      obtain ⟨hfits, download, hok, -⟩ := hr
      rw [hok]
      exact iff_of_true ⟨[], rfl, fun _ hmem => (by cases hmem)⟩ hfits
    | inr hr =>
      obtain ⟨hlong, fault, herror⟩ := hr
      rw [herror]
      exact iff_of_false (fun ⟨_, hok, _⟩ => (by cases hok)) hlong
  | data streamId data isLast =>
    by_cases hcurrent : log.current = some streamId.val
    · simp only [GivesContiguous, OtaInTime, h.data_current hcurrent, Except.ok.injEq,
        exists_eq_left', hcurrent, true_implies]
      exact h.data_iff hcurrent data isLast
    · simp only [GivesContiguous, OtaInTime, h.data_other hcurrent]
      exact iff_of_true ⟨[], rfl, fun _ hmem => (by cases hmem)⟩ fun heq => absurd heq hcurrent
  | manifest contentType data calls =>
    refine iff_of_true ⟨(otaReceiveManifest cfg calls s.ota).2, ?_, ?_⟩ trivial
    · rw [otaStep_manifest]
    · exact fun call hmem => absurd hmem ((otaReceiveManifest_keeps cfg calls s.ota).2 call)
  | mark name mark =>
    obtain ⟨ota, hstep, -⟩ := otaStep_mark cfg s name mark
    refine iff_of_true ⟨[], ?_, fun _ hmem => (by cases hmem)⟩ trivial
    rw [hstep]

theorem otaReceiveComponentData_download (cfg : OtaConfig) (s : Ota components.length) (data : Buf)
    (len : Nat) (isLast : Bool) :
    (otaReceiveComponentData cfg data len isLast s).1.download =
      if downlinkIdInvalid ≠ s.download.downlinkId then
        { s.download with offset := (s.download.offset + len) % 2^cfg.sizeBits }
      else s.download := by
  unfold otaReceiveComponentData
  split
  · rfl
  · rfl

/-- After a fragment of the stream in flight, whatever the listeners were given of it. -/
theorem OtaInv.data (h : OtaInv cfg (s, log)) {streamId : OtaStreamId}
    (hcurrent : log.current = some streamId.val) (data : Buf) (isLast : Bool) :
    OtaInv cfg (otaWatch cfg (s, log) (.data streamId data isLast)).1 := by
  simp only [otaWatch, h.data_current hcurrent, OtaLog.next, hcurrent, if_true,
    bytesTo_otaReceiveComponentData]
  have hcomponent := h.component
  simp only [hcurrent, Option.getD_some] at hcomponent
  constructor
  · cases isLast with
    | false => simpa using hcomponent
    | true => simp
  · cases isLast with
    | false => simpa using h.manifest
    | true => simpa [Function.update_apply, manifestService, componentService] using h.manifest
  · cases isLast with
    | false => simpa using h.lastSeen
    | true => simp
  · intro _ hvalid
    rw [otaReceiveComponentData_download] at hvalid ⊢
    by_cases hv : downlinkIdInvalid ≠ s.ota.download.downlinkId
    · rw [if_pos hv]
      show (s.ota.download.offset + data.length) % 2^cfg.sizeBits = _
      rw [h.offset (by simp [hcurrent]) hv, Nat.mod_add_mod, List.length_append]
    · rw [if_neg hv] at hvalid
      exact absurd hvalid hv
  · intro i hm
    simp only [Bool.or_eq_false_iff, Bool.and_eq_false_iff, Bool.not_eq_false',
      List.isEmpty_iff, decide_eq_true_eq] at hm
    have hkept : log.given i = log.received := h.kept i hm.1
    simp only [hkept]
    cases hm.2 with
    | inl hempty => simp [hempty]
    | inr hlistening => simp [hlistening]
  · intro i hm
    have hle := h.given_le i
    simp only [Bool.or_eq_true, Bool.and_eq_true, Bool.not_eq_true', decide_eq_false_iff_not,
      List.isEmpty_eq_false_iff] at hm
    simp only [List.length_append]
    cases hm with
    | inl hmissed =>
      have hshort : (log.given i).length < log.received.length := h.short i hmissed
      have hpart : (if s.ota.Listening i then data else []).length ≤ data.length := by
        split
        · exact le_rfl
        · exact Nat.zero_le _
      omega
    | inr hdropped =>
      have hpos : 0 < data.length := List.length_pos_iff.mpr hdropped.1
      rw [if_neg hdropped.2, List.length_nil]
      omega

theorem OtaInv.step (h : OtaInv cfg (s, log)) (op : OtaOp) (hr : GivesContiguous cfg (s, log) op) :
    OtaInv cfg (otaWatch cfg (s, log) op).1 := by
  cases op with
  | start streamId rest contentType =>
    simp only [otaWatch, otaStep_start, OtaLog.next]
    cases otaReceiveComponentStart_cases cfg streamId rest.chars s.ota.download with
    | inl hstart =>
      obtain ⟨-, download, hok, hoffset⟩ := hstart
      rw [hok]
      constructor
      · simp
      · simpa [Function.update_apply, manifestService, componentService] using h.manifest
      · simp [manifestService, componentService]
      · intro _ hvalid
        simpa using hoffset hvalid
      · exact fun _ _ => rfl
      · exact fun _ hm => (by cases hm)
    | inr hstart =>
      obtain ⟨hlong, -⟩ := hstart
      exact absurd ((givesContiguous_iff h _).mp hr) hlong
  | data streamId data isLast =>
    by_cases hcurrent : log.current = some streamId.val
    · exact h.data hcurrent data isLast
    · simp only [otaWatch, h.data_other hcurrent, OtaLog.next, hcurrent, if_false]
      exact h
  | manifest contentType data calls =>
    simp only [otaWatch, otaStep_manifest, OtaLog.next]
    have hdownload := (otaReceiveManifest_keeps cfg calls s.ota).1
    constructor
    · simpa [Function.update_apply, manifestService, componentService] using h.component
    · simp
    · simp
    · simpa only [hdownload] using h.offset
    · exact h.kept
    · exact h.short
  | mark name mark =>
    obtain ⟨ota, hstep, hdownload⟩ := otaStep_mark cfg s name mark
    simp only [otaWatch, hstep, OtaLog.next]
    exact ⟨h.component, h.manifest, h.lastSeen, by simpa only [hdownload] using h.offset, h.kept,
      h.short⟩

end

end

abbrev otaWatchFinal (cfg : OtaConfig) (components : List RegisteredComponent)
    (ops : List OtaOp) : OtaNode components.length × OtaLog components.length :=
  final (otaWatch cfg) (OtaNode.boot cfg components, OtaLog.boot components.length) ops

/-- In every run of component streams, manifests and marks, whatever is given to a component
of a stream is contiguous, exactly if every path names a component with a name that fits, and
a component that is marked for download when a fragment comes was so at every earlier fragment
of the stream that was not empty, and a size_t can still count the bytes before it. -/
theorem ota_data_contiguous_iff (cfg : OtaConfig) (components : List RegisteredComponent)
    (ops : List OtaOp) :
    (∀ u op v, ops = u++op :: v → GivesContiguous cfg (otaWatchFinal cfg components u) op) ↔
      ∀ u op v, ops = u++op :: v → OtaInTime cfg (otaWatchFinal cfg components u) op :=
  steps_iff (otaWatch cfg) (I := OtaInv cfg) (A := fun _ _ => True)
    (fun _ op _ h => givesContiguous_iff h op) (fun _ op _ h hr => h.step op hr)
    _ (otaInv_boot cfg components) ops fun _ _ _ _ => trivial

def otaDefaults : OtaConfig :=
  { Config.ofLog 9 .none with
    maxPackageNameLen := 32
    maxVersionLen := 32
    maxVersionLen_pos := by decide }
def oneComponent : List RegisteredComponent := [⟨pathA, ⟨[0x31], by decide⟩⟩]

def streamOne : OtaStreamId := ⟨1, by decide⟩
def markedLate : List OtaOp :=
  [.start streamOne ⟨[0x61, 0x40, 0x32], by decide⟩ 42, .data streamOne [1, 2] false,
    .mark pathA .forDownload]

/-- The first bytes that the component is given are at offset 2, and the last of the stream. -/
theorem late_mark_leaves_gap :
    (otaStep otaDefaults (otaWatchFinal otaDefaults oneComponent markedLate).1
      (.data streamOne [3] true)).2 = .ok [.receive ⟨⟨0, Nat.one_pos⟩, [3], 2, 1, true⟩] ∧
    ¬ GivesContiguous otaDefaults (otaWatchFinal otaDefaults oneComponent markedLate)
      (.data streamOne [3] true) := by
  have hcalls : (otaStep otaDefaults (otaWatchFinal otaDefaults oneComponent markedLate).1
      (.data streamOne [3] true)).2 = .ok [.receive ⟨⟨0, Nat.one_pos⟩, [3], 2, 1, true⟩] := by
    rfl
  refine ⟨hcalls, ?_⟩
  rintro ⟨out, hout, hall⟩
  rw [hcalls] at hout
  cases hout
  have hgiven := (hall _ List.mem_cons_self).complete rfl
  revert hgiven
  decide

end Pouch
