import PouchNode.Packetizer
import PouchNode.UplinkPull

/-! The uplink characteristic (uplink_characteristic.c). A read pulls one packet of the
uplink; the first one starts the session and a packetizer that keeps the handle. Whether
there is a session, a handle and a packetizer are three things that can disagree. -/
namespace Pouch
open Machine
variable {κ : Type*} {cfg : Config}

inductive UplinkHandle where
  | null | uplink
  deriving DecidableEq, Repr

inductive NullUse where
  | fill | finish | packetizerGet
  deriving DecidableEq, Repr

structure UplinkChrc (κ : Type*) where
  up : Uplink κ
  packetizer : Option (Packetizer UplinkHandle)
  nullUse : Option NullUse

def UplinkChrc.boot (k : κ) : UplinkChrc κ := ⟨.boot k, none, none⟩

inductive UplinkReadRet where
  | bytes (n : Nat)
  | unlikely
  deriving DecidableEq, Repr

section
variable (crypto : CryptoOps cfg κ)

def fillHandle (handle : UplinkHandle) (maxlen : Nat) (s : Uplink κ) :
    Except NullUse ((PouchResult × Buf) × Uplink κ) :=
  if !s.sessionActive then .ok ((.error, []), s)
  else
    match handle with
    | .null => .error .fill
    | .uplink => .ok (pouchUplinkFill crypto maxlen s)

def finishHandle (handle : UplinkHandle) (s : Uplink κ) : Except NullUse (Uplink κ) :=
  match handle with
  | .null => .error .finish
  | .uplink => .ok (pouchUplinkFinish crypto s)

def uplinkFillCb : FillCallback UplinkHandle (Uplink κ) NullUse := fun pouch maxlen s =>
  match fillHandle crypto pouch maxlen s with
  | .error e => .error e
  | .ok ((.error, bytes), s) =>
    match finishHandle crypto pouch s with
    | .error e => .error e
    | .ok s => .ok ((.error, bytes), s)
  | .ok ((.noMoreData, bytes), s) =>
    match finishHandle crypto pouch s with
    | .error e => .error e
    | .ok s => .ok ((.noMoreData, bytes), s)
  | .ok ((.moreData, bytes), s) => .ok ((.moreData, bytes), s)

def uplinkReadStart (malloc : Bool) (c : UplinkChrc κ) :
    Option (Packetizer UplinkHandle) × Uplink κ :=
  match c.packetizer with
  | some packetizer => (some packetizer, c.up)
  | none =>
    let (started, up) := pouchUplinkStart crypto c.up
    (packetizerStartCallback malloc (if started then .uplink else .null), up)

def uplinkRead (malloc : Bool) (len offset : UInt16) (c : UplinkChrc κ) :
    Except NullUse (UplinkReadRet × UplinkChrc κ) :=
  if offset ≠ 0 then .ok (.bytes 0, c)
  else
    match uplinkReadStart crypto malloc c with
    | (none, _) => .error .packetizerGet
    | (some packetizer, up) =>
      match packetizerGet (uplinkFillCb crypto) packetizer len.toNat up with
      | .error e => .error e
      | .ok got =>
        match got.result with
        | .error => .ok (.unlikely, { c with up := got.state, packetizer := none })
        | .noMoreData => .ok (.bytes got.dstLen, { c with up := got.state, packetizer := none })
        | .moreData =>
          .ok (.bytes got.dstLen, { c with up := got.state, packetizer := some got.packetizer })
        | .emptyPayload =>
          .ok (.bytes got.dstLen, { c with up := got.state, packetizer := some got.packetizer })

inductive ChrcOp where
  | read (malloc : Bool) (len offset : UInt16)
  | write (op : WritersOp)
  | close (lock : Ret)
  | process

def chrcStep (c : UplinkChrc κ) : ChrcOp → UplinkChrc κ × Option UplinkReadRet
  | .read malloc len offset =>
    match uplinkRead crypto malloc len offset c with
    | .error e => ({ c with nullUse := some e }, none)
    | .ok (ret, c) => (c, some ret)
  | .write op => ({ c with up := (uplinkStep crypto c.up (.write op)).1 }, none)
  | .close lock => ({ c with up := (uplinkStep crypto c.up (.close lock)).1 }, none)
  | .process => ({ c with up := (uplinkStep crypto c.up .process).1 }, none)

abbrev chrcFinal : UplinkChrc κ → List ChrcOp → UplinkChrc κ := final (chrcStep crypto)

end

def UplinkChrc.CanStart (c : UplinkChrc κ) : Prop :=
  c.packetizer = none ∧ c.up.sessionActive = false

section
variable (crypto : CryptoOps cfg κ)

def ReadsSafely (c : UplinkChrc κ) : ChrcOp → Prop
  | .read malloc len offset => ∃ ret next, uplinkRead crypto malloc len offset c = .ok (ret, next) ∧
      (ret = .unlikely → next.CanStart)
  | _ => True

def CryptoOps.starts (k : κ) : Bool :=
  let session := crypto.sessionStart k
  let pouch := crypto.pouchStart session.2
  decide (session.1 = .ok) && decide (pouch.1 = .ok) && (crypto.headerCreate pouch.2).1.isSome

/- The packetizer can be allocated if there is none, and a read for more than the flags is
   one for which there is a session, or the crypto module lets one start. -/
def ReadFits (c : UplinkChrc κ) : ChrcOp → Prop
  | .read malloc len offset => offset = 0 →
      (c.packetizer = none → malloc = true) ∧
      (2 ≤ len.toNat ↔ c.packetizer.isSome = true ∨ crypto.starts c.up.crypto = true)
  | _ => True

end

structure ChrcInv (c : UplinkChrc κ) : Prop where
  idle : c.packetizer = none → c.up.sessionActive = false
  busy : ∀ p, c.packetizer = some p → p.fill = .callback .uplink ∧ c.up.sessionActive = true

theorem chrcInv_boot (k : κ) : ChrcInv (UplinkChrc.boot k) where
  idle _ := rfl
  busy p hp := by cases hp

section
variable {crypto : CryptoOps cfg κ} {c : UplinkChrc κ}

theorem finish_inactive (crypto : CryptoOps cfg κ) (s : Uplink κ) :
    (pouchUplinkFinish crypto s).sessionActive = false := by
  simp only [pouchUplinkFinish]
  split
  · rfl
  · rfl

theorem uplinkFillCb_session (crypto : CryptoOps cfg κ) {s : Uplink κ} (ha : s.sessionActive = true) (maxlen : Nat) :
    ∃ bytes t, (uplinkFillCb crypto .uplink maxlen s = .ok ((.moreData, bytes), t) ∧
        t.sessionActive = true) ∨
      (uplinkFillCb crypto .uplink maxlen s = .ok ((.noMoreData, bytes), t) ∧
        t.sessionActive = false) := by
  obtain ⟨result, bytes, hfill⟩ := fillStep crypto ha maxlen
  have hout := hfill.output
  have hends := hfill.ends
  simp only [uplinkStep, Option.some.injEq] at hout hends
  cases hf : pouchUplinkFill crypto maxlen s with
  | mk filled t =>
    rw [hf] at hout hends
    obtain rfl : filled = (result, bytes) := hout
    have hcb : fillHandle crypto .uplink maxlen s = .ok ((result, bytes), t) := by
      simp [fillHandle, ha, hf]
    cases hends with
    | inl more =>
      obtain ⟨rfl, hactive, -⟩ := more
      exact ⟨bytes, t, Or.inl ⟨by simp [uplinkFillCb, hcb], hactive⟩⟩
    | inr done =>
      obtain ⟨rfl, -⟩ := done
      exact ⟨bytes, pouchUplinkFinish crypto t,
        Or.inr ⟨by simp [uplinkFillCb, hcb, finishHandle], finish_inactive crypto t⟩⟩

/-- Without a handle the callback always runs into NULL. -/
theorem uplinkFillCb_null (crypto : CryptoOps cfg κ) (maxlen : Nat) (s : Uplink κ) :
    ∃ e, uplinkFillCb crypto .null maxlen s = .error e := by
  cases ha : s.sessionActive with
  | false => exact ⟨.finish, by simp [uplinkFillCb, fillHandle, finishHandle, ha]⟩
  | true => exact ⟨.fill, by simp [uplinkFillCb, fillHandle, ha]⟩

variable {malloc : Bool} {len : UInt16} {p : Packetizer UplinkHandle} {up : Uplink κ}

theorem uplinkRead_short (hstart : uplinkReadStart crypto malloc c = (some p, up))
    (hlen : ¬ 2 ≤ len.toNat) :
    uplinkRead crypto malloc len 0 c = .ok (.unlikely, { c with up, packetizer := none }) := by
  have hroom : len.toNat ≤ packetOverhead := by
    simp only [packetOverhead]
    omega
  simp [uplinkRead, hstart, packetizerGet, hroom]

theorem uplinkRead_null (hstart : uplinkReadStart crypto malloc c = (some p, up))
    (hp : p.fill = .callback .null) (hlen : 2 ≤ len.toNat) :
    ∃ e, uplinkRead crypto malloc len 0 c = .error e := by
  have hroom : ¬ len.toNat ≤ packetOverhead := by
    simp only [packetOverhead]
    omega
  obtain ⟨e, he⟩ := uplinkFillCb_null crypto (len.toNat - packetOverhead) up
  exact ⟨e, by simp [uplinkRead, hstart, packetizerGet, hroom, hp, he]⟩

/-- A read during a session that is long enough goes on with it, or ends it. -/
theorem uplinkRead_session (hstart : uplinkReadStart crypto malloc c = (some p, up))
    (hp : p.fill = .callback .uplink) (ha : up.sessionActive = true) (hlen : 2 ≤ len.toNat) :
    ∃ n next, uplinkRead crypto malloc len 0 c = .ok (.bytes n, next) ∧ ChrcInv next := by
  have hroom : ¬ len.toNat ≤ packetOverhead := by
    simp only [packetOverhead]
    omega
  obtain ⟨bytes, t, hmore | hdone⟩ :=
    uplinkFillCb_session crypto ha (len.toNat - packetOverhead)
  · obtain ⟨hcb, hactive⟩ := hmore
    have hkept : ChrcInv { c with up := t, packetizer := some { p with isFirst := false } } := by
      constructor
      · intro hno
        cases hno
      · intro q hq
        cases hq
        exact ⟨hp, hactive⟩
    refine ⟨packetOverhead + bytes.length, _, ?_, hkept⟩
    by_cases hempty : bytes.length = 0
    · simp [uplinkRead, hstart, packetizerGet, hroom, hp, hcb, hempty]
    · simp [uplinkRead, hstart, packetizerGet, hroom, hp, hcb, hempty]
  · obtain ⟨hcb, hinactive⟩ := hdone
    have hover : ChrcInv { c with up := t, packetizer := none } :=
      ⟨fun _ => hinactive, fun q hq => by cases hq⟩
    refine ⟨packetOverhead + bytes.length, _, ?_, hover⟩
    simp [uplinkRead, hstart, packetizerGet, hroom, hp, hcb]

/-- Without a session, the crypto module decides whether one starts. -/
theorem pouchUplinkStart_starts (crypto : CryptoOps cfg κ) {s : Uplink κ}
    (hidle : s.sessionActive = false) :
    (pouchUplinkStart crypto s).1 = crypto.starts s.crypto := by
  simp only [pouchUplinkStart, CryptoOps.starts, hidle, Bool.false_eq_true, if_false]
  cases hsession : crypto.sessionStart s.crypto with
  | mk r1 k1 =>
  cases r1 with
  | err e => simp
  | ok =>
    dsimp only
    cases hpouch : crypto.pouchStart k1 with
    | mk r2 k2 =>
    cases r2 with
    | err e => simp
    | ok =>
      dsimp only
      cases hheader : crypto.headerCreate k2 with
      | mk header k3 => cases header <;> simp

/-- What the first half of a read finds or makes: a packetizer with a session, a packetizer
without a handle, or none. -/
theorem uplinkReadStart_cases (crypto : CryptoOps cfg κ) (malloc : Bool) (h : ChrcInv c) :
    ((c.packetizer = none ∧ malloc = false) ∧ (uplinkReadStart crypto malloc c).1 = none) ∨
    ∃ p up, uplinkReadStart crypto malloc c = (some p, up) ∧
      (c.packetizer = none → malloc = true) ∧
      ((c.packetizer.isSome = true ∨ crypto.starts c.up.crypto = true) ∧
          p.fill = .callback .uplink ∧ up.sessionActive = true ∨
        ¬ (c.packetizer.isSome = true ∨ crypto.starts c.up.crypto = true) ∧
          p.fill = .callback .null ∧ up.sessionActive = false) := by
  cases hp : c.packetizer with
  | some p =>
    refine Or.inr ⟨p, c.up, by simp [uplinkReadStart, hp], ?_, Or.inl ⟨Or.inl rfl, h.busy p hp⟩⟩
    intro hno
    cases hno
  | none =>
    cases malloc with
    | false =>
      exact Or.inl ⟨⟨rfl, rfl⟩, by simp [uplinkReadStart, hp, packetizerStartCallback]⟩
    | true =>
      have hstep := uplinkStep_start crypto c.up
      have hstarts := pouchUplinkStart_starts crypto (h.idle hp)
      simp only [uplinkStep] at hstep
      cases hs : pouchUplinkStart crypto c.up with
      | mk started up =>
        rw [hs] at hstep hstarts
        refine Or.inr ⟨⟨.callback (if started then .uplink else .null), true, none⟩, up,
          by simp [uplinkReadStart, hp, hs, packetizerStartCallback], fun _ => rfl, ?_⟩
        rw [← hstarts]
        cases hstep with
        | busy active => simp [h.idle hp] at active
        | failed inactive result header k same =>
          cases result
          obtain rfl : up = { c.up with header, crypto := k } := same
          exact Or.inr ⟨by simp, rfl, inactive⟩
        | begun inactive result H k1 k2 k3 session pouch made same =>
          cases result
          have hactive : up.sessionActive = true := congrArg Uplink.sessionActive same
          exact Or.inl ⟨by simp, rfl, hactive⟩

/- Everything a read can do. The packetizer of the last two is gone; the difference is
   whether a session is left over. -/
inductive ReadOutcome (crypto : CryptoOps cfg κ) (c : UplinkChrc κ) (op : ChrcOp)
    (read : Except NullUse (UplinkReadRet × UplinkChrc κ)) : Prop
  | null (unfit : ¬ ReadFits crypto c op) (e : NullUse) (ends : read = .error e)
  | served (fits : ReadFits crypto c op) (n : Nat) (next : UplinkChrc κ)
      (ends : read = .ok (.bytes n, next)) (inv : ChrcInv next)
  | refused (fits : ReadFits crypto c op) (next : UplinkChrc κ)
      (ends : read = .ok (.unlikely, next)) (free : next.CanStart)
  | stuck (unfit : ¬ ReadFits crypto c op) (next : UplinkChrc κ)
      (ends : read = .ok (.unlikely, next)) (active : next.up.sessionActive = true)

theorem uplinkRead_no_packetizer (hnone : (uplinkReadStart crypto malloc c).1 = none) :
    uplinkRead crypto malloc len 0 c = .error .packetizerGet := by
  cases hs : uplinkReadStart crypto malloc c with
  | mk packetizer up =>
    rw [hs] at hnone
    subst hnone
    simp [uplinkRead, hs]

theorem uplinkRead_cases (crypto : CryptoOps cfg κ) (malloc : Bool) (len offset : UInt16)
    (h : ChrcInv c) :
    ReadOutcome crypto c (.read malloc len offset) (uplinkRead crypto malloc len offset c) := by
  by_cases ho : offset = 0
  · subst ho
    cases uplinkReadStart_cases crypto malloc h with
    | inl hr =>
      obtain ⟨⟨hp, rfl⟩, hnone⟩ := hr
      exact .null (fun hfits => absurd ((hfits rfl).1 hp) (by decide)) _
        (uplinkRead_no_packetizer hnone)
    | inr hr =>
      obtain ⟨p, up, hstart, hmalloc, hkind⟩ := hr
      by_cases hlen : 2 ≤ len.toNat
      · cases hkind with
        | inl hsession =>
          obtain ⟨hhas, hp, ha⟩ := hsession
          obtain ⟨n, next, hok, hinv⟩ := uplinkRead_session hstart hp ha hlen
          exact .served (fun _ => ⟨hmalloc, iff_of_true hlen hhas⟩) n next hok hinv
        | inr hnull =>
          obtain ⟨hhas, hp, -⟩ := hnull
          obtain ⟨e, he⟩ := uplinkRead_null hstart hp hlen
          exact .null (fun hfits => hhas ((hfits rfl).2.mp hlen)) e he
      · have hshort := uplinkRead_short hstart hlen
        cases hkind with
        | inl hsession =>
          obtain ⟨hhas, -, ha⟩ := hsession
          exact .stuck (fun hfits => hlen ((hfits rfl).2.mpr hhas)) _ hshort ha
        | inr hnull =>
          obtain ⟨hhas, -, hinactive⟩ := hnull
          exact .refused (fun _ => ⟨hmalloc, iff_of_false hlen hhas⟩) _ hshort ⟨rfl, hinactive⟩
  · have hread : uplinkRead crypto malloc len offset c = .ok (.bytes 0, c) := by
      simp [uplinkRead, ho]
    exact .served (fun hz => absurd hz ho) 0 c hread h

theorem ChrcInv.of_canStart (h : c.CanStart) : ChrcInv c where
  idle _ := h.2
  busy p hp := by
    rw [h.1] at hp
    cases hp

/-- A read is safe exactly if it fits. -/
theorem uplinkRead_iff (crypto : CryptoOps cfg κ) (malloc : Bool) (len offset : UInt16)
    (h : ChrcInv c) :
    ReadsSafely crypto c (.read malloc len offset) ↔
      ReadFits crypto c (.read malloc len offset) := by
  cases uplinkRead_cases crypto malloc len offset h with
  | null unfit e ends =>
    refine iff_of_false ?_ unfit
    rintro ⟨ret, next, hok, -⟩
    rw [ends] at hok
    cases hok
  | served fits n next ends inv =>
    exact iff_of_true ⟨.bytes n, next, ends, fun hno => by cases hno⟩ fits
  | refused fits next ends free => exact iff_of_true ⟨.unlikely, next, ends, fun _ => free⟩ fits
  | stuck unfit next ends active =>
    refine iff_of_false ?_ unfit
    rintro ⟨ret, next', hok, hcan⟩
    rw [ends] at hok
    cases hok
    have hover := (hcan rfl).2
    rw [active] at hover
    cases hover

theorem uplinkRead_inv (crypto : CryptoOps cfg κ) (malloc : Bool) (len offset : UInt16)
    (h : ChrcInv c) (hfits : ReadFits crypto c (.read malloc len offset)) :
    ChrcInv (chrcStep crypto c (.read malloc len offset)).1 := by
  cases uplinkRead_cases crypto malloc len offset h with
  | null unfit e ends => exact absurd hfits unfit
  | served fits n next ends inv =>
    simp only [chrcStep, ends]
    exact inv
  | refused fits next ends free =>
    simp only [chrcStep, ends]
    exact .of_canStart free
  | stuck unfit next ends active => exact absurd hfits unfit

/-- What the others do leaves the session to the reads. -/
theorem ChrcInv.other (h : ChrcInv c) {t : Uplink κ} (ht : t.sessionActive = c.up.sessionActive) :
    ChrcInv { c with up := t } := by
  constructor
  · intro hp
    rw [ht]
    exact h.idle hp
  · intro p hp
    rw [ht]
    exact h.busy p hp

theorem chrcStep_inv (crypto : CryptoOps cfg κ) (op : ChrcOp) (h : ChrcInv c)
    (hfits : ReadFits crypto c op) : ChrcInv (chrcStep crypto c op).1 := by
  cases op with
  | read malloc len offset => exact uplinkRead_inv crypto malloc len offset h hfits
  | write op => exact h.other (uplinkStep_sessionActive crypto c.up rfl)
  | close lock => exact h.other (uplinkStep_sessionActive crypto c.up rfl)
  | process => exact h.other (uplinkStep_sessionActive crypto c.up rfl)

theorem readsSafely_iff (crypto : CryptoOps cfg κ) (op : ChrcOp) (h : ChrcInv c) :
    ReadsSafely crypto c op ↔ ReadFits crypto c op := by
  cases op with
  | read malloc len offset => exact uplinkRead_iff crypto malloc len offset h
  | write op => exact Iff.rfl
  | close lock => exact Iff.rfl
  | process => exact Iff.rfl

end

/-- In every run all reads are safe, exactly if each of them fits: there is memory for the
packetizer it needs, and it asks for a payload just when there is a session to read or the
crypto module lets one start. -/
theorem uplink_reads_safe_iff (crypto : CryptoOps cfg κ) (k : κ) (ops : List ChrcOp) :
    (∀ u op v, ops = u++op :: v → ReadsSafely crypto (chrcFinal crypto (.boot k) u) op) ↔
      ∀ u op v, ops = u++op :: v → ReadFits crypto (chrcFinal crypto (.boot k) u) op :=
  steps_iff (chrcStep crypto) (I := ChrcInv) (A := fun _ _ => True)
    (fun _ op _ h => readsSafely_iff crypto op h)
    (fun _ op _ h hr => chrcStep_inv crypto op h ((readsSafely_iff crypto op h).mp hr))
    (.boot k) (chrcInv_boot k) ops (fun _ _ _ _ => trivial)

/-- A read of one byte is an error and leaves the session without its packetizer; the next
read finds the session active, gets no handle for it, and pulls with NULL. -/
theorem second_read_uses_null :
    ¬ ReadsSafely pullCrypto (UplinkChrc.boot ()) (.read true 1 0) ∧
    uplinkRead pullCrypto true 20 0
        (chrcFinal pullCrypto (.boot ()) [.read true 1 0]) = .error .fill ∧
    uplinkRead pullCrypto false 20 0 (UplinkChrc.boot ()) = .error .packetizerGet := by
  refine ⟨?_, rfl, rfl⟩
  rintro ⟨ret, next, hok, hcan⟩
  have hread : uplinkRead pullCrypto true 1 0 (UplinkChrc.boot ()) =
      .ok (.unlikely, ⟨(pouchUplinkStart pullCrypto (.boot ())).2, none, none⟩) := rfl
  rw [hread] at hok
  cases hok
  exact absurd (hcan rfl).2 (by decide)

end Pouch
