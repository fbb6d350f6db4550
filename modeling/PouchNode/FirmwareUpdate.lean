import PouchNode.OtaStream

/-! The firmware update of the example application (examples/ble_gatt/src/fw_update.c). Its one
component writes the fragments it is given to flash, and asks for an upgrade after the last. -/
namespace Pouch
open Machine
variable {φ : Type*}

structure FlashImg (φ : Type*) where
  init : φ → Bool × φ
  bufferedWrite : Buf → Bool → φ → Bool × φ
  requestUpgrade : φ → Bool × φ

/- What is documented of it. Bytes are buffered before they come into the slot of the image; a
   write with the flush flag leaves none in the buffer. Nothing is said of calls that fail. -/
structure FlashImg.Lawful (flash : FlashImg φ) (written image : φ → Buf) : Prop where
  init : ∀ s t, flash.init s = (true, t) → written t = []
  write : ∀ data flush s t, flash.bufferedWrite data flush s = (true, t) →
    written t = written s++data
  flush : ∀ data s t, flash.bufferedWrite data true s = (true, t) → image t = written t
  request : ∀ s t, flash.requestUpgrade s = (true, t) → image t = image s

def FlashImg.Succeeds (flash : FlashImg φ) (data : Buf) (offset : Nat) (s : φ) : Prop :=
  ∃ opened stored t, (if offset = 0 then flash.init s else (true, s)) = (true, opened) ∧
    flash.bufferedWrite data true opened = (true, stored) ∧ flash.requestUpgrade stored = (true, t)

inductive MainReceived where
  | initFailed | writeFailed | written | requestFailed | rebooting
  deriving DecidableEq, Repr

def MainReceived.flashed : MainReceived → Bool
  | .initFailed | .writeFailed => false
  | .written | .requestFailed | .rebooting => true

def otaMainReceive (flash : FlashImg φ) (data : Buf) (offset : Nat) (isLast : Bool) (s : φ) :
    MainReceived × φ :=
  match if offset = 0 then flash.init s else (true, s) with
  | (false, s) => (.initFailed, s)
  | (true, s) =>
    match flash.bufferedWrite data isLast s with
    | (false, s) => (.writeFailed, s)
    | (true, s) =>
      if isLast then
        match flash.requestUpgrade s with
        | (false, s) => (.requestFailed, s)
        | (true, s) => (.rebooting, s)
      else (.written, s)

section
variable {components : List RegisteredComponent}

def otaManifestReceive : List ManifestComponent → Ota components.length → Ota components.length
  | [], s => s
  | component :: rest, s =>
    otaManifestReceive rest
      (if component.current.chars ≠ component.target then
        (goliothOtaMarkForDownload component.name s).2 else s)

end

def mainName : CString := ⟨[0x6D, 0x61, 0x69, 0x6E], by decide⟩
abbrev fwComponents (version : CString) : List RegisteredComponent := [⟨mainName, version⟩]

section
variable {version : CString}

structure FwNode (version : CString) (φ : Type*) where
  ota : OtaNode (fwComponents version).length
  flash : φ
  rebooting : Bool

/- The callbacks that the OTA service makes. Marks do not meet the rest of the handling of a
   manifest, so they may come after it. -/
def fwCalls (flash : FlashImg φ) :
    List (OtaCall (fwComponents version).length) → FwNode version φ →
      FwNode version φ × List MainReceived
  | [], s => (s, [])
  | .receive call :: calls, s =>
    let (ret, t) := otaMainReceive flash call.data call.offset call.isLast s.flash
    if ret = .rebooting then ({ s with flash := t, rebooting := true }, [ret])
    else
      let (s, rets) := fwCalls flash calls { s with flash := t }
      (s, ret :: rets)
  | .manifest components :: calls, s =>
    fwCalls flash calls
      { s with ota.ota := otaManifestReceive components s.ota.ota }

inductive FwOp where
  | start (streamId : OtaStreamId) (path : CString) (contentType : UInt16)
  | data (streamId : OtaStreamId) (data : Buf) (isLast : Bool)
  | manifest (contentType : UInt16) (data : Buf) (calls : List ManifestCall)

def FwOp.otaOp : FwOp → OtaOp
  | .start streamId path contentType => .start streamId path contentType
  | .data streamId bytes isLast => .data streamId bytes isLast
  | .manifest contentType bytes calls => .manifest contentType bytes calls

def fwStep (cfg : OtaConfig) (flash : FlashImg φ) (s : FwNode version φ) (op : FwOp) :
    FwNode version φ × Except OtaFault (List MainReceived) :=
  if s.rebooting then (s, .ok [])
  else
    let (ota, out) := otaStep cfg s.ota op.otaOp
    match out with
    | .error fault => ({ s with ota }, .error fault)
    | .ok calls =>
      let (s, rets) := fwCalls flash calls { s with ota }
      (s, .ok rets)

def FwNode.boot (cfg : OtaConfig) (version : CString) (flash : φ) : FwNode version φ :=
  ⟨.boot cfg (fwComponents version), flash, false⟩

structure FwLog (version : CString) where
  ota : OtaLog (fwComponents version).length
  flashed : Bool

def FwLog.next (log : FwLog version) (cfg : OtaConfig) (s : FwNode version φ)
    (out : Except OtaFault (List MainReceived)) (op : FwOp) : FwLog version where
  ota := log.ota.next s.ota.ota (otaStep cfg s.ota op.otaOp).2 op.otaOp
  flashed :=
    match op, out with
    | .start _ _ _, _ => true
    | _, .ok rets => log.flashed && rets.all MainReceived.flashed
    | _, .error _ => log.flashed

def fwWatch (cfg : OtaConfig) (flash : FlashImg φ) (w : FwNode version φ × FwLog version)
    (op : FwOp) : (FwNode version φ × FwLog version) × Except OtaFault (List MainReceived) :=
  if w.1.rebooting then (w, .ok [])
  else
    let (s, out) := fwStep cfg flash w.1 op
    ((s, w.2.next cfg w.1 out op), out)

def FwInTime (cfg : OtaConfig) (w : FwNode version φ × FwLog version) (op : FwOp) : Prop :=
  w.1.rebooting = false → OtaInTime cfg (w.1.ota, w.2.ota) op.otaOp

def mainComponent : Fin (fwComponents version).length := ⟨0, Nat.one_pos⟩

structure FwInv (cfg : OtaConfig) (written : φ → Buf) (w : FwNode version φ × FwLog version) :
    Prop where
  ota : OtaInv cfg (w.1.ota, w.2.ota)
  written : w.1.rebooting = false → w.2.ota.current ≠ none → w.2.flashed = true →
    w.2.ota.given mainComponent ≠ [] → written w.1.flash = w.2.ota.given mainComponent

section Receive
variable {flash : FlashImg φ} {data : Buf} {offset : Nat} {isLast : Bool} {s t : φ}
  {ret : MainReceived}

theorem otaMainReceive_flashed (h : otaMainReceive flash data offset isLast s = (ret, t))
    (hret : ret.flashed = true) :
    ∃ opened stored, (if offset = 0 then flash.init s else (true, s)) = (true, opened) ∧
      flash.bufferedWrite data isLast opened = (true, stored) ∧
      (isLast = false ∧ ret = .written ∧ t = stored ∨
        isLast = true ∧ (ret = .rebooting ∧ flash.requestUpgrade stored = (true, t) ∨
          ret = .requestFailed)) := by
  rw [otaMainReceive] at h
  cases hopened : (if offset = 0 then flash.init s else (true, s)) with
  | mk ok opened =>
    rw [hopened] at h
    cases ok with
    | false =>
      cases h
      cases hret
    | true =>
      dsimp only at h
      cases hstored : flash.bufferedWrite data isLast opened with
      | mk ok stored =>
        rw [hstored] at h
        cases ok with
        | false =>
          cases h
          cases hret
        | true =>
          refine ⟨opened, stored, rfl, hstored, ?_⟩
          cases isLast with
          | false =>
            cases h
            exact Or.inl ⟨rfl, rfl, rfl⟩
          | true =>
            simp only [if_true] at h
            cases hrequest : flash.requestUpgrade stored with
            | mk ok u =>
              rw [hrequest] at h
              cases ok with
              | false =>
                cases h
                exact Or.inr ⟨rfl, Or.inr rfl⟩
              | true =>
                cases h
                exact Or.inr ⟨rfl, Or.inl ⟨rfl, rfl⟩⟩

theorem otaMainReceive_rebooting (h : otaMainReceive flash data offset isLast s = (.rebooting, t)) :
    isLast = true := by
  obtain ⟨_, _, _, _, ⟨-, hret, -⟩ | ⟨hlast, -⟩⟩ := otaMainReceive_flashed h rfl
  · cases hret
  · exact hlast

theorem otaMainReceive_rebooting_iff : (otaMainReceive flash data offset true s).1 = .rebooting ↔
    flash.Succeeds data offset s := by
  constructor
  · intro h
    obtain ⟨opened, stored, hopened, hstored, ⟨hlast, -⟩ | ⟨-, ⟨-, hrequest⟩ | hfailed⟩⟩ :=
      otaMainReceive_flashed (Prod.ext h rfl : otaMainReceive flash data offset true s =
        (.rebooting, (otaMainReceive flash data offset true s).2)) rfl
    · cases hlast
    · exact ⟨opened, stored, _, hopened, hstored, hrequest⟩
    · cases hfailed
  · rintro ⟨opened, stored, t, hopened, hstored, hrequest⟩
    simp only [otaMainReceive, hopened, hstored, hrequest, if_true]

/-- A fragment at its place in the stream extends what has been written of the image. -/
theorem otaMainReceive_written {written image : φ → Buf} (hflash : flash.Lawful written image)
    {before : Buf} (hzero : offset = 0 → before = []) (hbefore : 0 < offset → written s = before)
    (h : otaMainReceive flash data offset isLast s = (ret, t)) (hret : ret.flashed = true) :
    (isLast = false → written t = before++data) ∧
      (ret = .rebooting → image t = before++data) := by
  obtain ⟨opened, stored, hopened, hstored, hends⟩ := otaMainReceive_flashed h hret
  have hstart : written opened = before := by
    by_cases hoffset : offset = 0
    · rw [if_pos hoffset] at hopened
      rw [hflash.init _ _ hopened, hzero hoffset]
    · rw [if_neg hoffset] at hopened
      obtain rfl : s = opened := congrArg Prod.snd hopened
      exact hbefore (Nat.pos_of_ne_zero hoffset)
  have hall : written stored = before++data := by rw [hflash.write _ _ _ _ hstored, hstart]
  rcases hends with ⟨hlast, hwritten, rfl⟩ | ⟨hlast, ⟨hreboot, hrequest⟩ | hfailed⟩
  · refine ⟨fun _ => hall, fun hr => ?_⟩
    rw [hwritten] at hr
    cases hr
  · refine ⟨fun hr => absurd (hlast.symm.trans hr) (by decide), fun _ => ?_⟩
    rw [hlast] at hstored
    rw [hflash.request _ _ hrequest, hflash.flush _ _ _ hstored, hall]
  · refine ⟨fun hr => absurd (hlast.symm.trans hr) (by decide), fun hr => ?_⟩
    rw [hfailed] at hr
    cases hr

end Receive

theorem otaManifestReceive_download {components : List RegisteredComponent}
    (manifest : List ManifestComponent) (s : Ota components.length) :
    (otaManifestReceive manifest s).download = s.download := by
  induction manifest generalizing s with
  | nil => rfl
  | cons component rest ih =>
    rw [otaManifestReceive, ih]
    split
    · exact goliothOtaSetStatus_download component.name .downloading s
    · rfl

section
variable {cfg : OtaConfig} {flash : FlashImg φ} {written image : φ → Buf}
  {s : FwNode version φ} {log : FwLog version}

variable (flash) in
theorem fwCalls_ota (calls : List (OtaCall (fwComponents version).length)) (s : FwNode version φ) :
    (fwCalls flash calls s).1.ota.dispatch = s.ota.dispatch ∧
      (fwCalls flash calls s).1.ota.ota.download = s.ota.ota.download := by
  induction calls generalizing s with
  | nil => exact ⟨rfl, rfl⟩
  | cons call calls ih =>
    cases call with
    | receive call =>
      rw [fwCalls]
      dsimp only
      split
      · exact ⟨rfl, rfl⟩
      · exact ih _
    | manifest components =>
      rw [fwCalls]
      have hrest := ih { s with ota.ota := otaManifestReceive components s.ota.ota }
      exact ⟨hrest.1, hrest.2.trans (otaManifestReceive_download components s.ota.ota)⟩

variable (flash) in
theorem fwCalls_quiet {calls : List (OtaCall (fwComponents version).length)}
    (hnone : ∀ call, OtaCall.receive call ∉ calls) (s : FwNode version φ) :
    (fwCalls flash calls s).1.flash = s.flash ∧
      (fwCalls flash calls s).1.rebooting = s.rebooting ∧ (fwCalls flash calls s).2 = [] := by
  induction calls generalizing s with
  | nil => exact ⟨rfl, rfl, rfl⟩
  | cons call calls ih =>
    have hrest : ∀ call, OtaCall.receive call ∉ calls := fun call h =>
      hnone call (List.mem_cons_of_mem _ h)
    cases call with
    | receive call => exact absurd List.mem_cons_self (hnone call)
    | manifest components =>
      rw [fwCalls]
      exact ih hrest _

theorem OtaInv.of_download {t : OtaNode (fwComponents version).length}
    (h : OtaInv cfg (t, log.ota)) {u : OtaNode (fwComponents version).length}
    (hdispatch : u.dispatch = t.dispatch) (hdownload : u.ota.download = t.ota.download) :
    OtaInv cfg (u, log.ota) where
  component := by simpa only [hdispatch] using h.component
  manifest := by simpa only [hdispatch] using h.manifest
  lastSeen := by simpa only [hdispatch] using h.lastSeen
  offset := by simpa only [hdownload] using h.offset
  kept := h.kept
  short := h.short

theorem fwWatch_eq (hrunning : s.rebooting = false) {op : FwOp}
    {out : List (OtaCall (fwComponents version).length)} {t : OtaNode (fwComponents version).length}
    (hstep : otaStep cfg s.ota op.otaOp = (t, .ok out)) :
    fwWatch cfg flash (s, log) op =
      (((fwCalls flash out { s with ota := t }).1,
        log.next cfg s (.ok (fwCalls flash out { s with ota := t }).2) op),
        .ok (fwCalls flash out { s with ota := t }).2) := by
  simp [fwWatch, fwStep, hrunning, hstep]

theorem otaReceiveComponentData_main (s : Ota (fwComponents version).length) (data : Buf)
    (len : Nat) (isLast : Bool) :
    (otaReceiveComponentData cfg data len isLast s).2 =
      if s.Listening mainComponent then
        [.receive ⟨mainComponent, data, s.download.offset, len, isLast⟩]
      else [] := by
  rw [otaReceiveComponentData_calls]
  have hall : List.finRange (fwComponents version).length = [mainComponent] := rfl
  rw [hall]
  by_cases hlistening : s.Listening mainComponent <;> simp [hlistening]

section Data
variable {streamId : OtaStreamId} {data : Buf} {isLast : Bool}

theorem OtaInv.gives_main {s t : OtaNode (fwComponents version).length}
    {log : OtaLog (fwComponents version).length} (h : OtaInv cfg (s, log)) {op : FwOp}
    {out : List (OtaCall (fwComponents version).length)}
    (hstep : otaStep cfg s op.otaOp = (t, .ok out)) :
    (∀ call, OtaCall.receive call ∉ out) ∨
      ∃ streamId data isLast, op = .data streamId data isLast ∧
        log.current = some streamId.val ∧ s.ota.Listening mainComponent := by
  cases op with
  | start streamId path contentType =>
    rw [FwOp.otaOp, otaStep_start] at hstep
    left
    split at hstep
    · cases hstep
    · cases hstep
      simp
  | manifest contentType bytes calls =>
    rw [FwOp.otaOp, otaStep_manifest] at hstep
    cases hstep
    exact Or.inl (otaReceiveManifest_keeps cfg calls s.ota).2
  | data streamId bytes isLast =>
    rw [FwOp.otaOp] at hstep
    by_cases hcurrent : log.current = some streamId.val
    · rw [h.data_current hcurrent, otaReceiveComponentData_main] at hstep
      cases hstep
      by_cases hlistening : s.ota.Listening mainComponent
      · exact Or.inr ⟨streamId, bytes, isLast, rfl, hcurrent, hlistening⟩
      · exact Or.inl (by simp [hlistening])
    · rw [h.data_other hcurrent] at hstep
      cases hstep
      exact Or.inl (by simp)

theorem OtaInv.given_main {s : OtaNode (fwComponents version).length}
    {log : OtaLog (fwComponents version).length} (h : OtaInv cfg (s, log))
    (hcurrent : log.current = some streamId.val)
    (hin : OtaInTime cfg (s, log) (.data streamId data isLast))
    (hlistening : s.ota.Listening mainComponent) :
    s.ota.download.offset = log.received.length ∧ log.given mainComponent = log.received := by
  have hcontiguous := (h.data_iff hcurrent data isLast).mpr (hin hcurrent)
    ⟨mainComponent, data, s.ota.download.offset, data.length, isLast⟩
    ((mem_otaReceiveComponentData ..).mpr ⟨hlistening, rfl⟩)
  exact ⟨hcontiguous.offset, h.kept mainComponent ((hin hcurrent) mainComponent hlistening).1⟩

/-- A fragment that main is given finds all of the stream before it written. -/
theorem FwInv.extended (hflash : flash.Lawful written image) (h : FwInv cfg written (s, log))
    (hrunning : s.rebooting = false) (hcurrent : log.ota.current = some streamId.val)
    (hin : OtaInTime cfg (s.ota, log.ota) (.data streamId data isLast))
    (hlistening : s.ota.ota.Listening mainComponent) {ret : MainReceived} {t : φ}
    (hreceive : otaMainReceive flash data s.ota.ota.download.offset isLast s.flash = (ret, t))
    (hflashed : log.flashed = true) (hret : ret.flashed = true) :
    (isLast = false → written t = log.ota.given mainComponent++data) ∧
      (ret = .rebooting → image t = log.ota.received++data) := by
  obtain ⟨hoffset, hgiven⟩ := h.ota.given_main hcurrent hin hlistening
  have hzero : s.ota.ota.download.offset = 0 → log.ota.given mainComponent = [] := by
    intro hzero
    rw [hgiven]
    exact List.length_eq_zero_iff.mp (hoffset.symm.trans hzero)
  have hbefore : 0 < s.ota.ota.download.offset →
      written s.flash = log.ota.given mainComponent := by
    intro hpos
    have hcome : log.ota.given mainComponent ≠ [] := by
      rw [hgiven]
      exact List.ne_nil_of_length_pos (hoffset ▸ hpos)
    exact h.written hrunning (by simp [hcurrent]) hflashed hcome
  obtain ⟨hwritten, himage⟩ := otaMainReceive_written hflash hzero hbefore hreceive hret
  exact ⟨hwritten, fun hreboot => hgiven ▸ himage hreboot⟩

theorem fwWatch_data (hrunning : s.rebooting = false) (h : OtaInv cfg (s.ota, log.ota))
    (hcurrent : log.ota.current = some streamId.val)
    (hlistening : s.ota.ota.Listening mainComponent) {ret : MainReceived} {t : φ}
    (hreceive : otaMainReceive flash data s.ota.ota.download.offset isLast s.flash = (ret, t)) :
    (fwWatch cfg flash (s, log) (.data streamId data isLast)).1.1.flash = t ∧
      (fwWatch cfg flash (s, log) (.data streamId data isLast)).1.1.rebooting =
        decide (ret = .rebooting) ∧
      (fwWatch cfg flash (s, log) (.data streamId data isLast)).1.2.flashed =
        (log.flashed && ret.flashed) ∧
      (fwWatch cfg flash (s, log) (.data streamId data isLast)).1.2.ota.current =
        (if isLast then none else log.ota.current) ∧
      (fwWatch cfg flash (s, log) (.data streamId data isLast)).1.2.ota.given mainComponent =
        log.ota.given mainComponent++data ∧
      (fwWatch cfg flash (s, log) (.data streamId data isLast)).1.2.ota.received =
        log.ota.received++data := by
  have hstep := h.data_current hcurrent data isLast
  rw [otaReceiveComponentData_main, if_pos hlistening] at hstep
  rw [fwWatch_eq hrunning hstep]
  by_cases hreboot : ret = .rebooting
  · simp [fwCalls, hreceive, hreboot, FwLog.next, MainReceived.flashed, FwOp.otaOp, OtaLog.next,
      hcurrent, hstep, OtaCall.bytesTo]
  · simp [fwCalls, hreceive, hreboot, hrunning, FwLog.next, FwOp.otaOp, OtaLog.next, hcurrent,
      hstep, OtaCall.bytesTo]

end Data

theorem OtaCall.bytesTo_nil {n : Nat} {out : List (OtaCall n)}
    (hnone : ∀ call, OtaCall.receive call ∉ out) (i : Fin n) :
    out.flatMap (OtaCall.bytesTo i) = [] := by
  rw [List.flatMap_eq_nil_iff]
  intro call hcall
  cases call with
  | receive call => exact absurd hcall (hnone call)
  | manifest components => rfl

theorem FwInv.quiet (h : FwInv cfg written (s, log)) (hrunning : s.rebooting = false) {op : FwOp}
    (hop : ∀ streamId path contentType, op ≠ .start streamId path contentType)
    {t : OtaNode (fwComponents version).length} {out : List (OtaCall (fwComponents version).length)}
    (hstep : otaStep cfg s.ota op.otaOp = (t, .ok out))
    (hnone : ∀ call, OtaCall.receive call ∉ out) :
    (fwWatch cfg flash (s, log) op).1.2.ota.current ≠ none →
      (fwWatch cfg flash (s, log) op).1.2.flashed = true →
      (fwWatch cfg flash (s, log) op).1.2.ota.given mainComponent ≠ [] →
      written (fwWatch cfg flash (s, log) op).1.1.flash =
        (fwWatch cfg flash (s, log) op).1.2.ota.given mainComponent := by
  obtain ⟨hsame, -, hrets⟩ := fwCalls_quiet flash hnone { s with ota := t }
  rw [fwWatch_eq hrunning hstep]
  dsimp only
  rw [hrets, hsame]
  cases op with
  | start streamId path contentType => exact absurd rfl (hop streamId path contentType)
  | manifest contentType bytes calls =>
    intro hcurrent hflashed hgiven
    exact h.written hrunning hcurrent (by simpa [FwLog.next] using hflashed) hgiven
  | data streamId bytes isLast =>
    simp only [FwLog.next, FwOp.otaOp, OtaLog.next] at hstep ⊢
    rw [hstep]
    by_cases hstream : log.ota.current = some streamId.val
    · simp only [hstream, if_true, OtaCall.bytesTo_nil hnone, List.append_nil, List.all_nil,
        Bool.and_true]
      intro _ hflashed hgiven
      exact h.written hrunning (by simp [hstream]) hflashed hgiven
    · simp only [hstream, if_false, List.all_nil, Bool.and_true]
      exact h.written hrunning

theorem FwInv.step (hflash : flash.Lawful written image) (h : FwInv cfg written (s, log))
    (op : FwOp) (hin : FwInTime cfg (s, log) op) :
    FwInv cfg written (fwWatch cfg flash (s, log) op).1 := by
  cases hrunning : s.rebooting with
  | true =>
    have hstays : fwWatch cfg flash (s, log) op = ((s, log), .ok []) := by
      simp [fwWatch, hrunning]
    rw [hstays]
    exact h
  | false =>
    have hright := (givesContiguous_iff h.ota op.otaOp).mpr (hin hrunning)
    have hinv := h.ota.step op.otaOp hright
    obtain ⟨out, hout, -⟩ := hright
    have hstep : otaStep cfg s.ota op.otaOp = ((otaStep cfg s.ota op.otaOp).1, .ok out) :=
      Prod.ext rfl hout
    have hota : OtaInv cfg ((fwWatch cfg flash (s, log) op).1.1.ota,
        (fwWatch cfg flash (s, log) op).1.2.ota) := by
      rw [fwWatch_eq hrunning hstep]
      have hkeeps := fwCalls_ota flash out
        { s with ota := (otaStep cfg s.ota op.otaOp).1 }
      exact hinv.of_download hkeeps.1 hkeeps.2
    refine ⟨hota, fun hruns => ?_⟩
    rcases h.ota.gives_main hstep with hnone | ⟨streamId, data, isLast, rfl, hcurrent, hlistening⟩
    · by_cases hstart : ∃ streamId path contentType, op = .start streamId path contentType
      · obtain ⟨streamId, path, contentType, rfl⟩ := hstart
        rw [fwWatch_eq hrunning hstep]
        intro _ _ hgiven
        exact absurd rfl hgiven
      · simp only [not_exists] at hstart
        exact h.quiet hrunning hstart hstep hnone
    · cases hreceive : otaMainReceive flash data s.ota.ota.download.offset isLast s.flash with
      | mk ret t =>
        obtain ⟨hstored, -, hflashed, hgoes, hgiven, -⟩ :=
          fwWatch_data hrunning h.ota hcurrent hlistening hreceive
        rw [hstored, hflashed, hgoes, hgiven, Bool.and_eq_true]
        intro hmore hall _
        refine (h.extended hflash hrunning hcurrent (hin hrunning) hlistening hreceive hall.1
          hall.2).1 ?_
        cases isLast with
        | true => exact absurd rfl hmore
        | false => rfl

def Offers (version : CString) : FwOp → Prop
  | .manifest _ _ calls => ∃ component, .receiveOne component ∈ calls ∧
      component.package = mainName ∧ component.version ≠ version
  | .start _ _ _ => False
  | .data _ _ _ => False

def RegisteredComponentData.Stirred (data : RegisteredComponentData) (version : CString) : Prop :=
  data.target ≠ version.chars ∨ data.state = .downloading

/-- A version that runs is kept whole, so that another target is another version. -/
theorem goliothOtaManifestReceiveOne_stirred (hversion : version.chars.length < cfg.maxVersionLen)
    (component : GoliothOtaComponent) (s : Ota (fwComponents version).length)
    (h : ((goliothOtaManifestReceiveOne cfg component s).data mainComponent).Stirred version) :
    (s.data mainComponent).Stirred version ∨
      (component.package = mainName ∧ component.version ≠ version) := by
  by_cases hname : component.package = mainName
  · by_cases hsame : component.version = version
    · left
      have hdata : (goliothOtaManifestReceiveOne cfg component s).data mainComponent =
          { s.data mainComponent with
            target := version.chars.take (cfg.maxVersionLen - 1)
            targetHash := component.hash
            size := (component.size % 2^cfg.sizeBits).toNat } := by
        rw [← hsame]
        exact if_pos hname
      rw [hdata, RegisteredComponentData.Stirred, List.take_of_length_le (by omega)] at h
      exact Or.inr (h.resolve_left (by simp))
    · exact Or.inr ⟨hname, hsame⟩
  · left
    have hdata : (goliothOtaManifestReceiveOne cfg component s).data mainComponent =
        s.data mainComponent := if_neg hname
    rwa [hdata] at h

/-- A manifest is decoded without a mark; what it hands on or leaves of main is another version
only if it lists one, or if there was one before. -/
theorem otaReceiveManifest_stirred (hversion : version.chars.length < cfg.maxVersionLen)
    (calls : List ManifestCall) (s : Ota (fwComponents version).length)
    (h : ((otaReceiveManifest cfg calls s).1.data mainComponent).Stirred version ∨
      ∃ manifest, OtaCall.manifest manifest ∈ (otaReceiveManifest cfg calls s).2 ∧
        ∃ component ∈ manifest, component.current.chars ≠ component.target) :
    (s.data mainComponent).Stirred version ∨ ∃ component, .receiveOne component ∈ calls ∧
      component.package = mainName ∧ component.version ≠ version := by
  induction calls generalizing s with
  | nil => exact Or.inl (h.resolve_right fun ⟨_, hmem, _⟩ => (by cases hmem))
  | cons call calls ih =>
    have hlater : (∃ component, ManifestCall.receiveOne component ∈ calls ∧
        component.package = mainName ∧ component.version ≠ version) →
        ∃ component, .receiveOne component ∈ call :: calls ∧
          component.package = mainName ∧ component.version ≠ version :=
      fun ⟨component, hmem, hother⟩ => ⟨component, List.mem_cons_of_mem _ hmem, hother⟩
    cases call with
    | receiveOne component =>
      rcases ih _ h with hstirred | hlists
      · exact (goliothOtaManifestReceiveOne_stirred hversion component s hstirred).imp_right
          fun hother => ⟨component, List.mem_cons_self, hother⟩
      · exact Or.inr (hlater hlists)
    | complete =>
      rw [otaReceiveManifest] at h
      dsimp only at h
      rcases h with hleft | ⟨manifest, hmem, component, hcomponent, hother⟩
      · exact (ih s (Or.inl hleft)).imp_right hlater
      · rcases List.mem_cons.mp hmem with hfirst | hmem
        · -- the list for the application has main as it is, and nothing else
          cases hfirst
          obtain rfl := List.mem_singleton.mp (show component ∈ [_] from hcomponent)
          exact Or.inl (Or.inl fun htarget => hother htarget.symm)
        · exact (ih s (Or.inr ⟨manifest, hmem, component, hcomponent, hother⟩)).imp_right hlater

theorem otaManifestReceive_stirred {version : CString} (manifest : List ManifestComponent)
    (s : Ota (fwComponents version).length)
    (h : ((otaManifestReceive manifest s).data mainComponent).Stirred version) :
    (s.data mainComponent).Stirred version ∨
      ∃ component ∈ manifest, component.current.chars ≠ component.target := by
  induction manifest generalizing s with
  | nil => exact Or.inl h
  | cons component rest ih =>
    by_cases hother : component.current.chars ≠ component.target
    · exact Or.inr ⟨component, List.mem_cons_self, hother⟩
    · rw [otaManifestReceive, if_neg hother] at h
      rcases ih s h with hs | ⟨found, hfound, htarget⟩
      · exact Or.inl hs
      · exact Or.inr ⟨found, List.mem_cons_of_mem _ hfound, htarget⟩

theorem fwCalls_stirred (calls : List (OtaCall (fwComponents version).length))
    (s : FwNode version φ)
    (h : ((fwCalls flash calls s).1.ota.ota.data mainComponent).Stirred version) :
    (s.ota.ota.data mainComponent).Stirred version ∨ ∃ components,
      OtaCall.manifest components ∈ calls ∧
        ∃ component ∈ components, component.current.chars ≠ component.target := by
  induction calls generalizing s with
  | nil => exact Or.inl h
  | cons call calls ih =>
    have hlater : (∃ components, OtaCall.manifest components ∈ calls ∧
        ∃ component ∈ components, component.current.chars ≠ component.target) →
        ∃ components, OtaCall.manifest components ∈ call :: calls ∧
          ∃ component ∈ components, component.current.chars ≠ component.target :=
      fun ⟨components, hmem, hother⟩ => ⟨components, List.mem_cons_of_mem _ hmem, hother⟩
    cases call with
    | receive call =>
      rw [fwCalls] at h
      dsimp only at h
      split at h
      · exact Or.inl h
      · exact (ih _ h).imp_right hlater
    | manifest components =>
      rw [fwCalls] at h
      rcases ih _ h with hmarked | hrest
      · exact (otaManifestReceive_stirred components s.ota.ota hmarked).imp_right
          fun hother => ⟨components, List.mem_cons_self, hother⟩
      · exact Or.inr (hlater hrest)

theorem otaReceiveComponentData_data (data : Buf) (len : Nat) (isLast : Bool)
    (s : Ota (fwComponents version).length) :
    (otaReceiveComponentData cfg data len isLast s).1.data = s.data := by
  rw [otaReceiveComponentData]
  split <;> rfl

/-- Main gets another target or a mark only with a manifest that offers another version. -/
theorem FwInv.stirred (h : FwInv cfg written (s, log))
    (hversion : version.chars.length < cfg.maxVersionLen) {op : FwOp}
    (hin : FwInTime cfg (s, log) op)
    (hafter : ((fwWatch cfg flash (s, log) op).1.1.ota.ota.data mainComponent).Stirred version) :
    (s.ota.ota.data mainComponent).Stirred version ∨ Offers version op := by
  cases hrunning : s.rebooting with
  | true =>
    rw [fwWatch, if_pos hrunning] at hafter
    exact Or.inl hafter
  | false =>
    obtain ⟨out, hout, -⟩ := (givesContiguous_iff h.ota op.otaOp).mpr (hin hrunning)
    have hstep : otaStep cfg s.ota op.otaOp = ((otaStep cfg s.ota op.otaOp).1, .ok out) :=
      Prod.ext rfl hout
    rw [fwWatch_eq hrunning hstep] at hafter
    have hmarked := fwCalls_stirred out _ hafter
    cases op with
    | start streamId path contentType =>
      rw [FwOp.otaOp, otaStep_start] at hmarked hout
      cases hstarted : otaReceiveComponentStart cfg streamId
          (if path.chars = [] then none else some path.chars) s.ota.ota.download with
      | error fault =>
        dsimp only at hout
        rw [hstarted] at hout
        cases hout
      | ok download =>
        dsimp only at hout
        rw [hstarted] at hmarked hout
        cases hout
        exact hmarked.imp_right (by simp)
    | data streamId bytes isLast =>
      by_cases hcurrent : log.ota.current = some streamId.val
      · rw [FwOp.otaOp, h.ota.data_current hcurrent] at hmarked hout
        cases hout
        rw [otaReceiveComponentData_main] at hmarked
        dsimp only at hmarked
        rw [otaReceiveComponentData_data] at hmarked
        refine hmarked.imp_right fun ⟨components, hmem, _⟩ => ?_
        split at hmem
        · simp at hmem
        · cases hmem
      · rw [FwOp.otaOp, h.ota.data_other hcurrent] at hmarked hout
        cases hout
        exact hmarked.imp_right (by simp)
    | manifest contentType bytes calls =>
      rw [FwOp.otaOp, otaStep_manifest] at hmarked hout
      cases hout
      exact otaReceiveManifest_stirred hversion calls s.ota.ota hmarked

end

abbrev fwFinal (cfg : OtaConfig) (flash : FlashImg φ) (version : CString) (s : φ)
    (ops : List FwOp) : FwNode version φ × FwLog version :=
  final (fwWatch cfg flash) (FwNode.boot cfg version s, ⟨OtaLog.boot _, true⟩) ops

section
variable {cfg : OtaConfig} {flash : FlashImg φ} {written image : φ → Buf} {s : φ} {ops : List FwOp}

theorem fwInv_boot (cfg : OtaConfig) (written : φ → Buf) (version : CString) (s : φ) :
    FwInv cfg written (FwNode.boot cfg version s, ⟨OtaLog.boot _, true⟩) where
  ota := otaInv_boot cfg (fwComponents version)
  written _ hcurrent := absurd rfl hcurrent

theorem fwInv_run (hflash : flash.Lawful written image)
    (hin : ∀ u op v, ops = u++op :: v → FwInTime cfg (fwFinal cfg flash version s u) op)
    {u v : List FwOp} (hsplit : ops = u++v) : FwInv cfg written (fwFinal cfg flash version s u) :=
  guarded_invariant (fwWatch cfg flash) (I := FwInv cfg written) (A := FwInTime cfg)
    (fun _ op hin h => h.step hflash op hin) _ (fwInv_boot cfg written version s) ops hin u v hsplit

theorem not_stirred_boot (hversion : version.chars.length < cfg.maxVersionLen) :
    ¬ ((Ota.boot cfg (fwComponents version)).data mainComponent).Stirred version := by
  have htarget : ((Ota.boot cfg (fwComponents version)).data mainComponent).target = version.chars :=
    List.take_of_length_le hversion.le
  rintro (hother | hmarked)
  · exact hother htarget
  · cases hmarked

/-- A run in which main is marked for download has had an offer. -/
theorem offered_run (hflash : flash.Lawful written image)
    (hversion : version.chars.length < cfg.maxVersionLen)
    (hin : ∀ u op v, ops = u++op :: v → FwInTime cfg (fwFinal cfg flash version s u) op)
    (u : List FwOp) : ∀ v, ops = u++v →
      ((fwFinal cfg flash version s u).1.ota.ota.data mainComponent).Stirred version →
      ∃ front offer rest, u = front++offer :: rest ∧ Offers version offer := by
  induction u using List.reverseRecOn with
  | nil =>
    intro v _ hstirred
    exact absurd hstirred (not_stirred_boot hversion)
  | append_singleton u op ih =>
    intro v hsplit hstirred
    have hstep : ops = u++op :: v := by rw [hsplit, List.append_assoc, List.singleton_append]
    have hinv : FwInv cfg written (fwFinal cfg flash version s u) := fwInv_run hflash hin hstep
    rw [fwFinal, final_snoc] at hstirred
    rcases hinv.stirred hversion (hin u op v hstep) hstirred with hbefore | hoffer
    · obtain ⟨front, offer, rest, rfl, hoffer⟩ := ih (op :: v) hstep hbefore
      exact ⟨front, offer, rest++[op], by simp, hoffer⟩
    · exact ⟨u, op, [], rfl, hoffer⟩

/-- The device reboots exactly if main is given the last fragment of a stream and its writes and
the request succeed. -/
theorem FwInv.rebooting_iff {s : FwNode version φ} {log : FwLog version}
    (h : FwInv cfg written (s, log)) {op : FwOp} (hin : FwInTime cfg (s, log) op)
    (hrunning : s.rebooting = false) :
    (fwWatch cfg flash (s, log) op).1.1.rebooting = true ↔
      ∃ streamId data, op = .data streamId data true ∧ log.ota.current = some streamId.val ∧
        s.ota.ota.Listening mainComponent ∧ flash.Succeeds data log.ota.received.length s.flash := by
  obtain ⟨out, hout, -⟩ := (givesContiguous_iff h.ota op.otaOp).mpr (hin hrunning)
  have hstep : otaStep cfg s.ota op.otaOp = ((otaStep cfg s.ota op.otaOp).1, .ok out) :=
    Prod.ext rfl hout
  rcases h.ota.gives_main hstep with hnone | ⟨streamId, data, isLast, rfl, hcurrent, hlistening⟩
  · rw [fwWatch_eq hrunning hstep, (fwCalls_quiet flash hnone _).2.1, hrunning]
    simp only [Bool.false_eq_true, false_iff]
    rintro ⟨streamId, data, rfl, hcurrent, hlistening, -⟩
    rw [FwOp.otaOp, h.ota.data_current hcurrent, otaReceiveComponentData_main,
      if_pos hlistening] at hout
    cases hout
    exact hnone _ List.mem_cons_self
  · have hoffset := (h.ota.given_main hcurrent (hin hrunning) hlistening).1
    cases hreceive : otaMainReceive flash data s.ota.ota.download.offset isLast s.flash with
    | mk ret t =>
      rw [(fwWatch_data hrunning h.ota hcurrent hlistening hreceive).2.1, decide_eq_true_eq]
      constructor
      · intro hreboot
        subst hreboot
        obtain rfl := otaMainReceive_rebooting hreceive
        rw [hoffset] at hreceive
        exact ⟨streamId, data, rfl, hcurrent, hlistening,
          otaMainReceive_rebooting_iff.mp (congrArg Prod.fst hreceive)⟩
      · rintro ⟨_, _, hop, -, -, hsucceeds⟩
        cases hop
        rw [← hoffset, ← otaMainReceive_rebooting_iff, hreceive] at hsucceeds
        exact hsucceeds

/-- If it does, and no write for the stream has failed, the image is all of the stream. -/
theorem FwInv.image_whole {s : FwNode version φ} {log : FwLog version}
    (hflash : flash.Lawful written image) (h : FwInv cfg written (s, log)) {op : FwOp}
    (hin : FwInTime cfg (s, log) op) (hrunning : s.rebooting = false)
    (hreboot : (fwWatch cfg flash (s, log) op).1.1.rebooting = true)
    (hflashed : (fwWatch cfg flash (s, log) op).1.2.flashed = true) :
    image (fwWatch cfg flash (s, log) op).1.1.flash =
      (fwWatch cfg flash (s, log) op).1.2.ota.received := by
  obtain ⟨streamId, data, rfl, hcurrent, hlistening, hsucceeds⟩ :=
    (h.rebooting_iff hin hrunning).mp hreboot
  have hret := otaMainReceive_rebooting_iff.mpr hsucceeds
  rw [← (h.ota.given_main hcurrent (hin hrunning) hlistening).1] at hret
  cases hreceive : otaMainReceive flash data s.ota.ota.download.offset true s.flash with
  | mk ret t =>
    obtain ⟨hstored, -, hall, -, -, hreceived⟩ :=
      fwWatch_data hrunning h.ota hcurrent hlistening hreceive
    rw [hall, Bool.and_eq_true] at hflashed
    rw [hreceive] at hret
    rw [hstored, hreceived]
    exact (h.extended hflash hrunning hcurrent (hin hrunning) hlistening hreceive hflashed.1
      hflashed.2).2 hret

end

/-- In every run in which main is given contiguous data only, and its version is shorter than the
longest that may be stored, the device reboots exactly with the last fragment of a stream that main
is marked for, if flash takes it and the request succeeds. A manifest has then offered another
version; and if no write for the stream has failed, the image is all of it. -/
theorem firmware_image_whole (cfg : OtaConfig) {flash : FlashImg φ} {written image : φ → Buf}
    (hflash : flash.Lawful written image) (version : CString)
    (hversion : version.chars.length < cfg.maxVersionLen) (s : φ) (ops : List FwOp)
    (hin : ∀ u op v, ops = u++op :: v → FwInTime cfg (fwFinal cfg flash version s u) op)
    (u : List FwOp) (op : FwOp) (v : List FwOp) (hsplit : ops = u++op :: v)
    (hrunning : (fwFinal cfg flash version s u).1.rebooting = false) :
    ((fwFinal cfg flash version s (u++[op])).1.rebooting = true ↔
      ∃ streamId data, op = .data streamId data true ∧
        (fwFinal cfg flash version s u).2.ota.current = some streamId.val ∧
        (fwFinal cfg flash version s u).1.ota.ota.Listening mainComponent ∧
        flash.Succeeds data (fwFinal cfg flash version s u).2.ota.received.length
          (fwFinal cfg flash version s u).1.flash) ∧
    ((fwFinal cfg flash version s (u++[op])).1.rebooting = true →
      (∃ front offer rest, u = front++offer :: rest ∧ Offers version offer) ∧
      ((fwFinal cfg flash version s (u++[op])).2.flashed = true →
        image (fwFinal cfg flash version s (u++[op])).1.flash =
          (fwFinal cfg flash version s (u++[op])).2.ota.received)) := by
  have hinv : FwInv cfg written (fwFinal cfg flash version s u) := fwInv_run hflash hin hsplit
  have hoffered := offered_run hflash hversion hin u (op :: v) hsplit
  have htime := hin u op v hsplit
  have hafter : fwFinal cfg flash version s (u++[op]) =
      (fwWatch cfg flash (fwFinal cfg flash version s u) op).1 := by rw [fwFinal, final_snoc]
  rw [hafter]
  refine ⟨hinv.rebooting_iff htime hrunning, fun hreboot => ⟨?_, fun hflashed =>
    hinv.image_whole hflash htime hrunning hreboot hflashed⟩⟩
  obtain ⟨_, _, _, _, hlistening, _⟩ := (hinv.rebooting_iff htime hrunning).mp hreboot
  exact hoffered (Or.inr (hlistening.marked mainComponent le_rfl hlistening.name))

end

def memoryFlash : FlashImg (Buf×Buf) where
  init s := (true, [], s.2)
  bufferedWrite data flush s := (true, s.1++data, if flush then s.1++data else s.2)
  requestUpgrade s := (true, s)

theorem memoryFlash_lawful : memoryFlash.Lawful Prod.fst Prod.snd where
  init := by
    rintro s t h
    cases h
    rfl
  write := by
    rintro data flush s t h
    cases h
    rfl
  flush := by
    rintro data s t h
    cases h
    rfl
  request := by
    rintro s t h
    cases h
    rfl

theorem versionOne_no_nul : (0 : UInt8) ∉ [0x31] := by decide
theorem versionTwo_no_nul : (0 : UInt8) ∉ [0x32] := by decide

def versionOne : CString := ⟨[0x31], versionOne_no_nul⟩
def versionTwo : CString := ⟨[0x32], versionTwo_no_nul⟩
def mainPath : CString := ⟨[0x6D, 0x61, 0x69, 0x6E, 0x40, 0x32], by decide⟩
def updateRun : List FwOp :=
  [.manifest 60 [] [.receiveOne ⟨mainName, versionTwo, Vector.replicate 32 0, 3⟩, .complete],
    .start streamOne mainPath 42, .data streamOne [1, 2] false, .data streamOne [3] true]

theorem updateRun_inTime (u : List FwOp) (op : FwOp) (v : List FwOp) (h : updateRun = u++op :: v) :
    FwInTime otaDefaults (fwFinal otaDefaults memoryFlash versionOne ([], []) u) op := by
  have hall : ∀ u op v, updateRun = u++op :: v → FwInTime otaDefaults
      (final (fwWatch otaDefaults memoryFlash)
        (FwNode.boot otaDefaults versionOne ([], []), ⟨OtaLog.boot _, true⟩) u) op := by
    simp only [updateRun, forall_steps_cons (fwWatch otaDefaults memoryFlash)]
    refine ⟨fun _ => trivial, fun _ => ⟨by decide, ?_⟩, fun _ _ => by decide, fun _ _ => by decide,
      forall_steps_nil _ _⟩
    intro nameLen hlen
    have hfour : some 4 = some nameLen := hlen
    cases hfour
    decide
  exact hall u op v h

theorem firmware_image_whole_two :
    (fwFinal otaDefaults memoryFlash versionOne ([], []) updateRun).1.flash.2 = [1, 2, 3] := by
  have hrun := firmware_image_whole otaDefaults memoryFlash_lawful versionOne (by decide) ([], [])
    updateRun updateRun_inTime (updateRun.take 3) (.data streamOne [3] true) [] rfl (by decide)
  exact (hrun.2 (by decide)).2 (by decide)

end Pouch
