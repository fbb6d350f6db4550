import PouchNode.Characteristic
import PouchNode.UplinkCharacteristic

/-! The packets of the uplink characteristic (uplink_characteristic.c), and what the peer puts
together from them: whole pouches, one for each session. -/
namespace Pouch
open Machine Fragments
variable {κ : Type*} {cfg : Config}

section
variable (crypto : CryptoOps cfg κ)

def uplinkReadHandler : ReadHandler UplinkHandle (Uplink κ) NullUse where
  start malloc s :=
    let (started, s) := pouchUplinkStart crypto s
    (.ok (packetizerStartCallback malloc (if started then .uplink else .null)), s)
  cb := uplinkFillCb crypto
  failed := .unlikely
  noPacketizer := .packetizerGet

abbrev AppOp := {op : UplinkOp // op.isTransport = false}
def AppOp.write (op : WritersOp) : AppOp := ⟨.write op, rfl⟩
def AppOp.close : AppOp := ⟨.close .ok, rfl⟩
def AppOp.process : AppOp := ⟨.process, rfl⟩

def appAct (s : Uplink κ) (op : AppOp) : Uplink κ := (uplinkStep crypto s op.1).1

abbrev packetStep : ReadRun UplinkHandle (Uplink κ) → ReadOp AppOp →
    ReadRun UplinkHandle (Uplink κ) × Option Buf :=
  readStep (uplinkReadHandler crypto) (appAct crypto)

abbrev packetFinal (k : κ) : List (ReadOp AppOp) → ReadRun UplinkHandle (Uplink κ) :=
  final (packetStep crypto) (.boot (.boot k))

def ReadRun.chrc (r : ReadRun UplinkHandle (Uplink κ)) : UplinkChrc κ :=
  ⟨r.ctx.state, r.ctx.packetizer, none⟩

def PacketFits (r : ReadRun UplinkHandle (Uplink κ)) : ReadOp AppOp → Prop
  | .read malloc len offset => ReadFits crypto r.chrc (.read malloc len offset)
  | .other _ => True

end

def ReadRet.erase : ReadRet → UplinkReadRet
  | .value bytes => .bytes bytes.length
  | _ => .unlikely

section
variable {crypto : CryptoOps cfg κ}

theorem packetizerGet_dstLen {α σ ε : Type*} {cb : FillCallback α σ ε} {p : Packetizer α} {dstLen : Nat}
    {s : σ} {got : Got α σ} (h : packetizerGet cb p dstLen s = .ok got) (hok : got.result ≠ .error) :
    (got.packet.take got.dstLen).length = got.dstLen := by
  by_cases hroom : dstLen ≤ packetOverhead
  · simp only [packetizerGet, hroom, if_true, Except.ok.injEq] at h
    subst h
    exact absurd rfl hok
  · simp only [packetizerGet, hroom, if_false] at h
    cases hfill : p.fill with
    | buffer src =>
      by_cases hfits : src.length ≤ dstLen - packetOverhead
      · simp only [hfill, hfits, if_true, Except.ok.injEq] at h
        subst h
        simp [packetOverhead, Nat.add_comm]
      · simp only [hfill, hfits, if_false, Except.ok.injEq] at h
        subst h
        simp only [List.length_take, List.length_cons, packetOverhead] at hfits ⊢
        omega
    | callback arg =>
      cases hcb : cb arg (dstLen - packetOverhead) s with
      | error e => simp [hfill, hcb] at h
      | ok answer =>
        obtain ⟨⟨result, bytes⟩, t⟩ := answer
        simp only [hfill, hcb] at h
        split_ifs at h
        · cases h
          exact absurd rfl hok
        all_goals
          cases h
          simp [packetOverhead, Nat.add_comm]

/-- It is the read that is modelled without the packets. -/
theorem uplinkRead_eq (crypto : CryptoOps cfg κ) (malloc : Bool) (len offset : UInt16)
    (c : UplinkChrc κ) :
    uplinkRead crypto malloc len offset c =
      (chrcRead (uplinkReadHandler crypto) malloc len offset ⟨c.packetizer, c.up⟩).map fun r =>
        (r.1.erase, { c with up := r.2.state, packetizer := r.2.packetizer }) := by
  by_cases ho : offset = 0
  · have hstart : chrcPacketizer (uplinkReadHandler crypto) malloc ⟨c.packetizer, c.up⟩ =
        (.ok (uplinkReadStart crypto malloc c).1, (uplinkReadStart crypto malloc c).2) := by
      cases hp : c.packetizer <;> simp [chrcPacketizer, uplinkReadStart, uplinkReadHandler, hp]
    simp only [uplinkRead, chrcRead, ho, ne_eq, not_true, if_false, hstart]
    cases hmade : uplinkReadStart crypto malloc c with
    | mk made up =>
    cases made with
    | none => rfl
    | some p =>
      dsimp only
      cases hgot : packetizerGet (uplinkFillCb crypto) p len.toNat up with
      | error e => simp [uplinkReadHandler, hgot, Except.map]
      | ok got =>
        have hlen := packetizerGet_dstLen hgot
        cases hresult : got.result with
        | error => simp [uplinkReadHandler, hgot, hresult, Except.map, ReadRet.erase]
        | noMoreData | moreData | emptyPayload =>
          have hlen := hlen (by rw [hresult]; decide)
          simp [uplinkReadHandler, hgot, hresult, Except.map, ReadRet.erase, hlen]
  · simp [uplinkRead, chrcRead, ho, Except.map, ReadRet.erase]

/-- A packet of a session brings what pouch_uplink_fill has filled in; it is the last one if
there is no more data, and then the session is finished. -/
theorem packetizerGet_session (crypto : CryptoOps cfg κ) {p : Packetizer UplinkHandle}
    (hp : p.fill = .callback .uplink) {s : Uplink κ} (hactive : s.sessionActive = true)
    {dstLen : Nat} (hlen : packetOverhead < dstLen) :
    ∃ result bytes got, FillStep crypto (dstLen - packetOverhead) s
        (uplinkStep crypto s (.fill (dstLen - packetOverhead))).1
        (uplinkStep crypto s (.fill (dstLen - packetOverhead))).2 result bytes ∧
      packetizerGet (uplinkFillCb crypto) p dstLen s = .ok got ∧
      (ReadRet.value (got.packet.take got.dstLen)).fragment =
        some ⟨bytes, p.isFirst, decide (result = .noMoreData)⟩ ∧
      (result = .moreData ∧ (got.result = .moreData ∨ got.result = .emptyPayload) ∧
          got.packetizer = { p with isFirst := false } ∧
          got.state = (uplinkStep crypto s (.fill (dstLen - packetOverhead))).1 ∨
        result = .noMoreData ∧ got.result = .noMoreData ∧
          got.state = (uplinkStep crypto
            (uplinkStep crypto s (.fill (dstLen - packetOverhead))).1 .finish).1) := by
  have hroom : ¬ dstLen ≤ packetOverhead := Nat.not_le.mpr hlen
  obtain ⟨result, bytes, hfill⟩ := fillStep crypto hactive (dstLen - packetOverhead)
  have hout := hfill.output
  cases hf : pouchUplinkFill crypto (dstLen - packetOverhead) s with
  | mk filled t =>
  have hstep : uplinkStep crypto s (.fill (dstLen - packetOverhead)) =
      (t, ⟨[], [], false, some filled⟩) := by simp [uplinkStep, hf]
  rw [hstep] at hfill hout ⊢
  obtain rfl : filled = (result, bytes) := Option.some.inj hout
  have hhandle : fillHandle crypto .uplink (dstLen - packetOverhead) s = .ok ((result, bytes), t) := by
    simp [fillHandle, hactive, hf]
  cases hfill.ends with
  | inl more =>
    obtain ⟨rfl, -⟩ := more
    refine ⟨.moreData, bytes, ⟨if bytes.length = 0 then .emptyPayload else .moreData,
      packetFlags p.isFirst false :: bytes, packetOverhead + bytes.length,
      { p with isFirst := false }, t⟩, hfill, ?_, fragment_value p.isFirst false bytes,
      Or.inl ⟨rfl, ?_, rfl, rfl⟩⟩
    · simp [packetizerGet, hroom, hp, uplinkFillCb, hhandle, packetFlags]
    · dsimp only
      split_ifs
      · exact Or.inr rfl
      · exact Or.inl rfl
  | inr done =>
    obtain ⟨rfl, -⟩ := done
    refine ⟨.noMoreData, bytes, ⟨.noMoreData, packetFlags p.isFirst true :: bytes,
      packetOverhead + bytes.length, { p with isFirst := false }, pouchUplinkFinish crypto t⟩,
      hfill, ?_, fragment_value p.isFirst true bytes, Or.inr ⟨rfl, rfl, rfl⟩⟩
    simp [packetizerGet, hroom, hp, uplinkFillCb, hhandle, finishHandle, packetFlags]

end

structure UplinkPouch (crypto : CryptoOps cfg κ) where
  header : Buf
  state : κ
  blocks : List Buf
  made : ∃ k0 k1 k2, crypto.sessionStart k0 = (.ok, k1) ∧ crypto.pouchStart k1 = (.ok, k2) ∧
    crypto.headerCreate k2 = (some header, state)

def UplinkPouch.bytes {crypto : CryptoOps cfg κ} (pouch : UplinkPouch crypto) : Buf :=
  sessionString crypto pouch.state pouch.header pouch.blocks

def UplinkPouch.BegunIn {crypto : CryptoOps cfg κ} (pouch : UplinkPouch crypto) (k : κ)
    (calls : List UplinkOp) : Prop :=
  ∃ u v, calls = u++.start :: v ∧
    (uplinkStep crypto (uplinkFinal crypto (.boot k) u) .start).2.started = true ∧
    (uplinkStep crypto (uplinkFinal crypto (.boot k) u) .start).1.header = some pouch.header ∧
    (uplinkStep crypto (uplinkFinal crypto (.boot k) u) .start).1.crypto = pouch.state

section
variable {crypto : CryptoOps cfg κ}

theorem UplinkPouch.BegunIn.append {pouch : UplinkPouch crypto} {k : κ} {calls : List UplinkOp}
    (h : pouch.BegunIn k calls) (new : List UplinkOp) : pouch.BegunIn k (calls++new) := by
  obtain ⟨u, v, rfl, hbegun⟩ := h
  exact ⟨u, v++new, by simp, hbegun⟩

structure Reading (crypto : CryptoOps cfg κ) (pouch : UplinkPouch crypto) (s : Uplink κ)
    (p : Packetizer UplinkHandle) (peer : Option Buf) : Prop where
  fill : p.fill = .callback .uplink
  pulling : ∃ tr, Pulling crypto pouch.state pouch.header tr s ∧ pouch.blocks = takenBlocks tr ∧
    (if p.isFirst then returnedBytes tr = [] else peer = some (returnedBytes tr))

theorem UplinkPouch.header_lt (pouch : UplinkPouch crypto) : pouch.header.length < 2^cfg.sizeBits := by
  obtain ⟨k0, k1, k2, -, -, hmade⟩ := pouch.made
  exact crypto.header_lt k2 pouch.header (by rw [hmade])

theorem Reading.active {pouch : UplinkPouch crypto} {s : Uplink κ} {p : Packetizer UplinkHandle}
    {peer : Option Buf} (h : Reading crypto pouch s p peer) : s.sessionActive = true := by
  obtain ⟨tr, hpulling, -⟩ := h.pulling
  exact hpulling.active

theorem Reading.other {pouch : UplinkPouch crypto} {s : Uplink κ} {p : Packetizer UplinkHandle}
    {peer : Option Buf} (h : Reading crypto pouch s p peer) (op : AppOp) :
    Reading crypto
      { pouch with
        blocks := pouch.blocks++(uplinkStep crypto s op.1).2.taken.map Prod.fst }
      (appAct crypto s op) p peer := by
  obtain ⟨tr, hpulling, hblocks, hpeer⟩ := h.pulling
  obtain ⟨op, hop⟩ := op
  have hstart : op ≠ .start := fun hs => by
    subst hs
    cases hop
  have hfilled : (uplinkStep crypto s op).2.filled = none := by
    cases op with
    | fill maxlen => cases hop
    | enqueue block | write op | close lock | process | start | finish => rfl
  refine ⟨h.fill, tr++[event (uplinkStep crypto) s op], ?_, ?_, ?_⟩
  · rcases hpulling.step pouch.header_lt hstart with hnext | hended
    · exact hnext
    · have hactive := uplinkStep_sessionActive crypto s hop
      rw [hended.inactive, hpulling.active] at hactive
      cases hactive
  · simp [hblocks, event]
  · simpa [event, hfilled] using hpeer

/-- A packet takes the session further, or it is the last one and brings the pouch. -/
theorem Reading.get {pouch : UplinkPouch crypto} {s : Uplink κ} {p : Packetizer UplinkHandle}
    {peer : Option Buf} (h : Reading crypto pouch s p peer) {dstLen : Nat}
    (hlen : packetOverhead < dstLen) :
    ∃ got f, packetizerGet (uplinkFillCb crypto) p dstLen s = .ok got ∧
      (ReadRet.value (got.packet.take got.dstLen)).fragment = some f ∧
      ((got.result = .moreData ∨ got.result = .emptyPayload) ∧
          got.state = (uplinkStep crypto s (.fill (dstLen - packetOverhead))).1 ∧
          Reading crypto pouch got.state got.packetizer (receive peer f).1 ∧
          (receive peer f).2 = none ∨
        got.result = .noMoreData ∧
          got.state = (uplinkStep crypto
            (uplinkStep crypto s (.fill (dstLen - packetOverhead))).1 .finish).1 ∧
          (receive peer f).2 = some pouch.bytes) := by
  obtain ⟨tr, hpulling, hblocks, hpeer⟩ := h.pulling
  obtain ⟨result, bytes, got, hfill, hgot, hfragment, hends⟩ :=
    packetizerGet_session crypto h.fill hpulling.active hlen
  refine ⟨got, _, hgot, hfragment, ?_⟩
  have hspec := hfill.spec hpulling.reader hpulling.lengths
  have hreturned : returnedBytes
      (tr++[event (uplinkStep crypto) s (.fill (dstLen - packetOverhead))]) =
      returnedBytes tr++bytes := by
    simp [event, hfill.output]
  have hfront : (if p.isFirst then some bytes else peer.map (·++bytes)) =
      some (returnedBytes tr++bytes) := by
    cases hfirst : p.isFirst with
    | true =>
      rw [hfirst, if_pos rfl] at hpeer
      simp [hpeer]
    | false =>
      rw [hfirst, if_neg Bool.false_ne_true] at hpeer
      simp [hpeer]
  rcases hends with ⟨rfl, hresult, hpacketizer, hstate⟩ | ⟨rfl, hresult, hstate⟩
  · refine Or.inl ⟨hresult, hstate, ⟨by rw [hpacketizer]; exact h.fill,
      tr++[event (uplinkStep crypto) s (.fill (dstLen - packetOverhead))], ?_, ?_, ?_⟩, ?_⟩
    · rw [hstate]
      rcases hfill.ends with ⟨-, hactive, hsame⟩ | ⟨hno, -⟩
      · exact hpulling.filled hfill.output hfill.taken hspec hfill.header hactive hsame
      · cases hno
    · simp [hblocks, event, hfill.taken]
    · simp only [hpacketizer, Bool.false_eq_true, if_false, receive, hfront, hreturned,
        reduceCtorEq, decide_false]
    · simp [receive]
  · refine Or.inr ⟨hresult, hstate, ?_⟩
    have hall : returnedBytes tr++bytes = pouch.bytes := by
      rcases hfill.ends with ⟨hno, -⟩ | ⟨-, -, htransport, hempty, -⟩
      · cases hno
      · have hdrained := hpulling.drained
          (e := event (uplinkStep crypto) s (.fill (dstLen - packetOverhead)))
          hfill.output hfill.taken hspec htransport hempty
        rw [hreturned, takenBlocks_snoc] at hdrained
        rw [hdrained, UplinkPouch.bytes, hblocks]
        simp [event, hfill.taken]
    simp only [receive, decide_true, if_true, hfront, hall]

theorem reading_start {s : Uplink κ} (h : Idle s) (hstart : (pouchUplinkStart crypto s).1 = true)
    (peer : Option Buf) :
    ∃ pouch : UplinkPouch crypto, pouch.blocks = [] ∧
      (pouchUplinkStart crypto s).2.header = some pouch.header ∧
      (pouchUplinkStart crypto s).2.crypto = pouch.state ∧
      Reading crypto pouch (pouchUplinkStart crypto s).2 ⟨.callback .uplink, true, none⟩ peer := by
  have hstarted : (uplinkStep crypto s .start).2.started = true := hstart
  obtain ⟨H, hheader, -, hpulling⟩ := pulling_start crypto h hstarted
  cases uplinkStep_start crypto s with
  | busy active result same =>
    rw [hstarted] at result
    cases result
  | failed inactive result header k same state =>
    rw [hstarted] at result
    cases result
  | begun inactive result H' k1 k2 k3 session pouch made same =>
    obtain rfl : H' = H := by
      rw [same] at hheader
      exact Option.some.inj hheader
    have hcrypto : (uplinkStep crypto s .start).1.crypto = k3 := congrArg Uplink.crypto same
    rw [hcrypto] at hpulling
    exact ⟨⟨H', k3, [], s.crypto, k1, k2, session, pouch, made⟩, rfl, hheader, hcrypto, rfl, [],
      hpulling, rfl, rfl⟩

theorem idle_start {s : Uplink κ} (h : Idle s) (hstart : (pouchUplinkStart crypto s).1 = false) :
    Idle (pouchUplinkStart crypto s).2 := by
  have hstarted : (uplinkStep crypto s .start).2.started = false := hstart
  have hidle : Idle (uplinkStep crypto s .start).1 := by
    cases uplinkStep_start crypto s with
    | busy active result same => rwa [same]
    | failed inactive result header k same state =>
      rw [same]
      exact ⟨h.inactive, h.transport, h.reader⟩
    | begun inactive result H k1 k2 k3 session pouch made same =>
      rw [hstarted] at result
      cases result
  exact hidle

/- After the run the uplink is where these calls have brought it; their blocks have gone into
   the pouches that the peer has got, and the rest into the one that is coming. -/
structure PouchesDelivered (crypto : CryptoOps cfg κ) (k : κ) (r : ReadRun UplinkHandle (Uplink κ))
    (calls : List UplinkOp) (done : List (UplinkPouch crypto)) (coming : List Buf) : Prop where
  state : r.ctx.state = uplinkFinal crypto (.boot k) calls
  taken : takenBlocks (uplinkTrace crypto (.boot k) calls) =
    done.flatMap UplinkPouch.blocks++coming
  begun : ∀ pouch ∈ done, pouch.BegunIn k calls
  session : match r.ctx.packetizer with
    | none => Idle r.ctx.state ∧ coming = []
    | some p => ∃ pouch, Reading crypto pouch r.ctx.state p r.peer ∧ pouch.blocks = coming ∧
        pouch.BegunIn k calls

def Delivers (crypto : CryptoOps cfg κ) (k : κ) (calls : List UplinkOp)
    (done : List (UplinkPouch crypto)) (next : ReadRun UplinkHandle (Uplink κ) × Option Buf)
    (new : List UplinkOp) : Prop :=
  ∃ coming, next.2 = none ∧ PouchesDelivered crypto k next.1 (calls++new) done coming ∨
    ∃ pouch, next.2 = some pouch.bytes ∧
      PouchesDelivered crypto k next.1 (calls++new) (done++[pouch]) coming

theorem taken_snoc (crypto : CryptoOps cfg κ) (s : Uplink κ) (calls : List UplinkOp) (op : UplinkOp) :
    takenBlocks (uplinkTrace crypto s (calls++[op])) = takenBlocks (uplinkTrace crypto s calls)++
      (uplinkStep crypto (uplinkFinal crypto s calls) op).2.taken.map Prod.fst := by
  simp [trace_append, event]

theorem taken_fill (crypto : CryptoOps cfg κ) (s : Uplink κ) (maxlen : Nat) :
    (uplinkStep crypto s (.fill maxlen)).2.taken = [] := rfl

variable {k : κ} {r : ReadRun UplinkHandle (Uplink κ)} {calls : List UplinkOp}
  {done : List (UplinkPouch crypto)} {coming : List Buf}

theorem PouchesDelivered.other (h : PouchesDelivered crypto k r calls done coming) (op : AppOp) :
    Delivers crypto k calls done (packetStep crypto r (.other op)) [op.1] := by
  have hstate : appAct crypto r.ctx.state op = uplinkFinal crypto (.boot k) (calls++[op.1]) := by
    rw [uplinkFinal, final_snoc, appAct, h.state]
  have hstart : op.1 ≠ .start := fun hs => by
    have hop := op.2
    rw [hs] at hop
    cases hop
  have hsession := h.session
  have hbegun : ∀ pouch ∈ done, pouch.BegunIn k (calls++[op.1]) := fun pouch hpouch =>
    (h.begun pouch hpouch).append [op.1]
  cases hp : r.ctx.packetizer with
  | none =>
    rw [hp] at hsession
    obtain ⟨hidle, rfl⟩ := hsession
    refine ⟨[], Or.inl ⟨rfl, hstate, ?_, hbegun, ?_⟩⟩
    · rw [taken_snoc, ← h.state, (inactive_step crypto hidle.inactive op.1 hstart).2.1, h.taken]
      simp
    · simp only [packetStep, readStep, hp]
      exact ⟨hidle.step crypto hstart, trivial⟩
  | some p =>
    rw [hp] at hsession
    obtain ⟨pouch, hreading, rfl, hpouch⟩ := hsession
    refine ⟨pouch.blocks++(uplinkStep crypto r.ctx.state op.1).2.taken.map Prod.fst,
      Or.inl ⟨rfl, hstate, ?_, hbegun, ?_⟩⟩
    · rw [taken_snoc, ← h.state, h.taken, List.append_assoc]
    · simp only [packetStep, readStep, hp]
      exact ⟨_, hreading.other op, rfl, hpouch.append [op.1]⟩

/-- A read for which there is a packetizer of a session, be it one that has just started. -/
theorem delivers_get {malloc : Bool} {len : UInt16} (before : List UplinkOp)
    (hbefore : ∀ op ∈ before, op.isTransport = true) {p : Packetizer UplinkHandle}
    {s : Uplink κ} {pouch : UplinkPouch crypto}
    (hmade : chrcPacketizer (uplinkReadHandler crypto) malloc r.ctx = (.ok (some p), s))
    (hstate : s = uplinkFinal crypto (.boot k) (calls++before))
    (htaken : takenBlocks (uplinkTrace crypto (.boot k) (calls++before)) =
      done.flatMap UplinkPouch.blocks++pouch.blocks)
    (hbegun : ∀ pouch ∈ done, pouch.BegunIn k calls) (hpouch : pouch.BegunIn k (calls++before))
    (hreading : Reading crypto pouch s p r.peer) (hlen : 2 ≤ len.toNat) :
    ∃ new, (∀ op ∈ new, op.isTransport = true) ∧
      Delivers crypto k calls done (packetStep crypto r (.read malloc len 0)) new := by
  have hroom : packetOverhead < len.toNat := by rw [packetOverhead]; omega
  obtain ⟨got, f, hgot, hfragment, hends⟩ := hreading.get hroom
  have hcb : packetizerGet (uplinkReadHandler crypto).cb p len.toNat s = .ok got := hgot
  have hreceive : peerReceive r.peer _ = _ := peerReceive_value hfragment
  rcases hends with ⟨hresult, hnext, hgoes, hnone⟩ | ⟨hresult, hnext, hsome⟩
  · have hstep : packetStep crypto r (.read malloc len 0) =
        (⟨⟨some got.packetizer, got.state⟩, (receive r.peer f).1⟩, (receive r.peer f).2) := by
      rcases hresult with hresult | hresult
      · simp [packetStep, readStep, chrcRead, hmade, hcb, hresult, hreceive]
      · simp [packetStep, readStep, chrcRead, hmade, hcb, hresult, hreceive]
    refine ⟨before++[.fill (len.toNat - packetOverhead)], List.forall_mem_append.mpr
      ⟨hbefore, by simp [UplinkOp.isTransport]⟩, pouch.blocks, Or.inl ?_⟩
    rw [hstep]
    refine ⟨hnone, ?_, ?_, fun pouch hdone => (hbegun pouch hdone).append _, ?_⟩
    · rw [← List.append_assoc, uplinkFinal, final_snoc, ← uplinkFinal, ← hstate]
      exact hnext
    · rw [← List.append_assoc, taken_snoc, taken_fill, htaken]
      simp
    · rw [← List.append_assoc]
      exact ⟨pouch, hgoes, rfl, hpouch.append _⟩
  · have hstep : packetStep crypto r (.read malloc len 0) =
        (⟨⟨none, got.state⟩, (receive r.peer f).1⟩, (receive r.peer f).2) := by
      simp [packetStep, readStep, chrcRead, hmade, hcb, hresult, hreceive]
    refine ⟨before++[.fill (len.toNat - packetOverhead), .finish], List.forall_mem_append.mpr
      ⟨hbefore, by simp [UplinkOp.isTransport]⟩, [], Or.inr ⟨pouch, ?_⟩⟩
    have hsplit : calls++(before++[.fill (len.toNat - packetOverhead), .finish]) =
        ((calls++before)++[.fill (len.toNat - packetOverhead)])++[.finish] := by simp
    rw [hstep, hsplit]
    refine ⟨hsome, ?_, ?_, List.forall_mem_append.mpr ⟨fun pouch hdone => ?_, ?_⟩, ?_⟩
    · rw [uplinkFinal, final_snoc, final_snoc, ← uplinkFinal, ← hstate]
      exact hnext
    · rw [taken_snoc, taken_snoc, taken_fill, htaken]
      simp [uplinkStep]
    · rw [← hsplit]
      exact (hbegun pouch hdone).append _
    · rw [List.forall_mem_singleton, List.append_assoc]
      exact hpouch.append _
    · refine ⟨?_, rfl⟩
      rw [hnext]
      exact idle_finish crypto _

theorem PouchesDelivered.read (h : PouchesDelivered crypto k r calls done coming) {malloc : Bool}
    {len offset : UInt16} (hfits : PacketFits crypto r (.read malloc len offset)) :
    ∃ new, (∀ op ∈ new, op.isTransport = true) ∧
      Delivers crypto k calls done (packetStep crypto r (.read malloc len offset)) new := by
  by_cases ho : offset = 0
  · subst ho
    obtain ⟨hmalloc, hlen⟩ := hfits rfl
    have hsession := h.session
    cases hp : r.ctx.packetizer with
    | some p =>
      rw [hp] at hsession
      obtain ⟨pouch, hreading, rfl, hpouch⟩ := hsession
      have hmade : chrcPacketizer (uplinkReadHandler crypto) malloc r.ctx =
          (.ok (some p), r.ctx.state) := by rw [chrcPacketizer, hp]
      refine delivers_get [] (by simp) hmade ?_ ?_ h.begun (hpouch.append []) hreading
        (hlen.mpr (Or.inl ?_))
      · rw [List.append_nil]
        exact h.state
      · rw [List.append_nil]
        exact h.taken
      · rw [ReadRun.chrc, hp]
        rfl
    | none =>
      rw [hp] at hsession
      obtain ⟨hidle, rfl⟩ := hsession
      obtain rfl : malloc = true := hmalloc hp
      have hstarts := pouchUplinkStart_starts crypto hidle.inactive
      have hstate : (pouchUplinkStart crypto r.ctx.state).2 =
          uplinkFinal crypto (.boot k) (calls++[.start]) := by
        rw [uplinkFinal, final_snoc, ← uplinkFinal, ← h.state]
        rfl
      have htaken : takenBlocks (uplinkTrace crypto (.boot k) (calls++[.start])) =
          done.flatMap UplinkPouch.blocks := by
        rw [taken_snoc, h.taken]
        simp [uplinkStep]
      have hmade : chrcPacketizer (uplinkReadHandler crypto) true r.ctx =
          (.ok (some ⟨.callback (if (pouchUplinkStart crypto r.ctx.state).1 then .uplink else .null),
            true, none⟩), (pouchUplinkStart crypto r.ctx.state).2) := by
        simp [chrcPacketizer, hp, uplinkReadHandler, packetizerStartCallback]
      cases hstarted : (pouchUplinkStart crypto r.ctx.state).1 with
      | true =>
        obtain ⟨pouch, hblocks, hheader, hcrypto, hreading⟩ := reading_start hidle hstarted r.peer
        have hpouch : pouch.BegunIn k (calls++[.start]) := by
          refine ⟨calls, [], rfl, ?_⟩
          rw [← h.state]
          exact ⟨hstarted, hheader, hcrypto⟩
        rw [hstarted, if_pos rfl] at hmade
        refine delivers_get [.start] (by simp [UplinkOp.isTransport]) hmade hstate ?_ h.begun hpouch
          hreading (hlen.mpr (Or.inr (hstarts.symm.trans hstarted)))
        rw [htaken, hblocks, List.append_nil]
      | false =>
        have hshort : len.toNat ≤ packetOverhead := by
          have hno : ¬ 2 ≤ len.toNat := fun h2 => by
            rcases hlen.mp h2 with hsome | hyes
            · rw [ReadRun.chrc, hp] at hsome
              cases hsome
            · rw [ReadRun.chrc] at hyes
              rw [hstarted, hyes] at hstarts
              cases hstarts
          rw [packetOverhead]
          omega
        have hstep : packetStep crypto r (.read true len 0) =
            (⟨⟨none, (pouchUplinkStart crypto r.ctx.state).2⟩, r.peer⟩, none) := by
          have hfailed : (uplinkReadHandler crypto).failed = .unlikely := rfl
          simp [packetStep, readStep, chrcRead, hmade, packetizerGet, hshort, hfailed, peerReceive,
            ReadRet.fragment]
        refine ⟨[.start], by simp [UplinkOp.isTransport], [], Or.inl ?_⟩
        rw [hstep]
        refine ⟨rfl, hstate, ?_, fun pouch hpouch => (h.begun pouch hpouch).append _,
          idle_start hidle hstarted, rfl⟩
        rw [htaken, List.append_nil]
  · have hstep : packetStep crypto r (.read malloc len offset) = (r, none) := by
      simp [packetStep, readStep, chrcRead, ho, peerReceive, ReadRet.fragment, packetizerDecode]
    refine ⟨[], by simp, coming, Or.inl ?_⟩
    rw [hstep, List.append_nil]
    exact ⟨rfl, h⟩

/- The calls that a run comes to: those of the application, and between them what the reads do. -/
inductive CallsOf (crypto : CryptoOps cfg κ) (k : κ) : List (ReadOp AppOp) → List UplinkOp → Prop
  | nil : CallsOf crypto k [] []
  | other {ops : List (ReadOp AppOp)} {calls : List UplinkOp} (op : AppOp)
      (before : CallsOf crypto k ops calls) : CallsOf crypto k (ops++[.other op]) (calls++[op.1])
  | read {ops : List (ReadOp AppOp)} {calls new : List UplinkOp} (malloc : Bool)
      (len offset : UInt16) (before : CallsOf crypto k ops calls)
      (transport : ∀ op ∈ new, op.isTransport = true)
      (state : (packetFinal crypto k (ops++[.read malloc len offset])).ctx.state =
        uplinkFinal crypto (.boot k) (calls++new)) :
      CallsOf crypto k (ops++[.read malloc len offset]) (calls++new)

theorem packetFinal_delivered (crypto : CryptoOps cfg κ) (k : κ) (ops : List (ReadOp AppOp))
    (hfits : ∀ u op v, ops = u++op :: v → PacketFits crypto (packetFinal crypto k u) op) :
    ∃ calls done coming, CallsOf crypto k ops calls ∧
      PouchesDelivered crypto k (packetFinal crypto k ops) calls done coming ∧
      (outputs (packetStep crypto) (.boot (.boot k)) ops).filterMap id =
        done.map UplinkPouch.bytes := by
  induction ops using List.reverseRecOn with
  | nil => exact ⟨[], [], [], .nil, ⟨rfl, rfl, by simp, ⟨rfl, rfl, rfl⟩, rfl⟩, rfl⟩
  | append_singleton ops op ih =>
    obtain ⟨calls, done, coming, hcalls, hdelivered, houts⟩ := ih fun u o v hsplit =>
      hfits u o (v++[op]) (by simp [hsplit])
    have hfinal : packetFinal crypto k (ops++[op]) =
        (packetStep crypto (packetFinal crypto k ops) op).1 := final_snoc ..
    have hstep : ∃ new, Delivers crypto k calls done
        (packetStep crypto (packetFinal crypto k ops) op) new ∧
        ((packetFinal crypto k (ops++[op])).ctx.state = uplinkFinal crypto (.boot k) (calls++new) →
          CallsOf crypto k (ops++[op]) (calls++new)) := by
      cases op with
      | read malloc len offset =>
        obtain ⟨new, htransport, hdelivers⟩ := hdelivered.read (hfits ops _ [] rfl)
        exact ⟨new, hdelivers, hcalls.read malloc len offset htransport⟩
      | other op => exact ⟨[op.1], hdelivered.other op, fun _ => hcalls.other op⟩
    have hout : outputs (packetStep crypto) (.boot (.boot k)) (ops++[op]) =
        outputs (packetStep crypto) (.boot (.boot k)) ops++
          [(packetStep crypto (packetFinal crypto k ops) op).2] := outputs_append _ _ _ _
    rw [hfinal, hout, List.filterMap_append, houts]
    rw [hfinal] at hstep
    obtain ⟨new, ⟨coming', ⟨hnone, hnext⟩ | ⟨pouch, hsome, hnext⟩⟩, hcallsOf⟩ := hstep
    · exact ⟨calls++new, done, coming', hcallsOf hnext.state, hnext, by simp [hnone]⟩
    · exact ⟨calls++new, done++[pouch], coming', hcallsOf hnext.state, hnext, by simp [hsome]⟩

theorem PouchesDelivered.blocks (h : PouchesDelivered crypto k r calls done coming) :
    done.flatMap UplinkPouch.blocks++coming++r.ctx.state.processing.queue =
      enqueuedInRun (uplinkTrace crypto (.boot k) calls) ∧
    (r.ctx.packetizer = none → coming = []) := by
  refine ⟨?_, fun hidle => ?_⟩
  · rw [← h.taken, h.state]
    exact taken_append_queue crypto k calls
  · have hsession := h.session
    rw [hidle] at hsession
    exact hsession.2

end

/-- In every run in which the reads fit, between calls of the application and of the work queue:
the messages that the peer has put together are whole pouches, each the header that was made for
its session and the encrypted blocks of the session; and the blocks of these pouches, then those
of the pouch that is coming, and then those still waiting are the blocks enqueued, in order. -/
theorem uplink_packets_delivered (crypto : CryptoOps cfg κ) (k : κ) (ops : List (ReadOp AppOp))
    (hfits : ∀ u op v, ops = u++op :: v → PacketFits crypto (packetFinal crypto k u) op) :
    ∃ (calls : List UplinkOp) (done : List (UplinkPouch crypto)) (coming : List Buf),
      CallsOf crypto k ops calls ∧
      (packetFinal crypto k ops).ctx.state = uplinkFinal crypto (.boot k) calls ∧
      (outputs (packetStep crypto) (.boot (.boot k)) ops).filterMap id =
        done.map UplinkPouch.bytes ∧
      (∀ pouch ∈ done, pouch.BegunIn k calls) ∧
      done.flatMap UplinkPouch.blocks++coming++
        (packetFinal crypto k ops).ctx.state.processing.queue =
          enqueuedInRun (uplinkTrace crypto (.boot k) calls) ∧
      ((packetFinal crypto k ops).ctx.packetizer = none → coming = []) := by
  obtain ⟨calls, done, coming, hcalls, hdelivered, houts⟩ := packetFinal_delivered crypto k ops hfits
  exact ⟨calls, done, coming, hcalls, hdelivered.state, houts, hdelivered.begun, hdelivered.blocks⟩

def packetRun : List (ReadOp AppOp) :=
  [.other ⟨.enqueue [0, 2, 0xC0, 7], rfl⟩, .read true 5 0, .other AppOp.process,
    .other AppOp.close, .other AppOp.process, .read false 100 0]

theorem packetRun_fits (u : List (ReadOp AppOp)) (op : ReadOp AppOp) (v : List (ReadOp AppOp))
    (h : packetRun = u++op :: v) : PacketFits pullCrypto (packetFinal pullCrypto () u) op := by
  have hall : ∀ u op v, packetRun = u++op :: v →
      PacketFits pullCrypto (final (packetStep pullCrypto) (.boot (.boot ())) u) op := by
    simp only [packetRun, forall_steps_cons (packetStep pullCrypto)]
    exact ⟨trivial, fun _ => by decide, trivial, trivial, trivial, fun _ => by decide,
      forall_steps_nil _ _⟩
  exact hall u op v h

theorem uplink_packets_delivered_plain : ∃ done : List (UplinkPouch pullCrypto),
    done.map UplinkPouch.bytes = [[0x82, 0x01, 0x82, 0x00, 0x61, 0x61, 0, 2, 0xC0, 7]] := by
  obtain ⟨calls, done, coming, -, -, houts, -⟩ :=
    uplink_packets_delivered pullCrypto () packetRun packetRun_fits
  exact ⟨done, houts.symm.trans (by decide)⟩

end Pouch
