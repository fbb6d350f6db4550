import PouchNode.Lib.Fragments
import PouchNode.PacketizerRoundTrip

/-! The characteristics that are read (transport/ble_gatt). Their handlers have one body: the
first read makes a packetizer, every read takes a packet out of it, and it is freed with the
last packet or an error. What they send comes from the front of a buffer, or of what a callback
works on. -/
namespace Pouch
open Machine Fragments

def Decodes (packets : List Buf) (fs : List (Fragment UInt8)) : Prop :=
  packets.map packetizerDecode = fs.map fun f => some (f.payload, f.first, f.last)

theorem Carries.decodes {packets : List (Buf × Nat)} {chunks : List Buf}
    (h : Carries true packets chunks) : Decodes (packets.map Prod.fst) (fragments true chunks) := by
  rw [Decodes, List.map_map, fragments_eq_mapIdx]
  refine h.decoded.trans ?_
  simp [List.mapIdx_eq_zipIdx_map]

inductive ReadRet where
  | value (bytes : Buf)
  | notSupported | unlikely | buildError
  deriving DecidableEq, Repr

structure ReadCtx (α σ : Type*) where
  packetizer : Option (Packetizer α)
  state : σ

/- Where the handlers differ: how they make a packetizer, its callback, and what they return
   when it fails. -/
structure ReadHandler (α σ ε : Type*) where
  start : Bool → σ → Except ReadRet (Option (Packetizer α)) × σ
  cb : FillCallback α σ ε
  failed : ReadRet
  /- The use of a packetizer that is NULL. -/
  noPacketizer : ε

section
variable {α σ ε : Type*}

def chrcPacketizer (rd : ReadHandler α σ ε) (malloc : Bool) (c : ReadCtx α σ) :
    Except ReadRet (Option (Packetizer α)) × σ :=
  match c.packetizer with
  | some packetizer => (.ok (some packetizer), c.state)
  | none => rd.start malloc c.state

def chrcRead (rd : ReadHandler α σ ε) (malloc : Bool) (len offset : UInt16) (c : ReadCtx α σ) :
    Except ε (ReadRet × ReadCtx α σ) :=
  if offset ≠ 0 then .ok (.value [], c)
  else
    match chrcPacketizer rd malloc c with
    | (.error ret, state) => .ok (ret, ⟨none, state⟩)
    | (.ok none, _) => .error rd.noPacketizer
    | (.ok (some packetizer), state) =>
      match packetizerGet rd.cb packetizer len.toNat state with
      | .error e => .error e
      | .ok got =>
        let value := got.packet.take got.dstLen
        match got.result with
        | .error => .ok (rd.failed, ⟨none, got.state⟩)
        | .noMoreData => .ok (.value value, ⟨none, got.state⟩)
        | .moreData => .ok (.value value, ⟨some got.packetizer, got.state⟩)
        | .emptyPayload => .ok (.value value, ⟨some got.packetizer, got.state⟩)

end

structure ReadHandler.Keeps {α σ ε : Type*} (rd : ReadHandler α σ ε) (P : σ → Prop) : Prop where
  start : ∀ malloc s, P s → P (rd.start malloc s).2
  cb : ∀ arg n s filled t, rd.cb arg n s = .ok (filled, t) → P s → P t

section
variable {α σ ε : Type*} {rd : ReadHandler α σ ε} {P : σ → Prop}

theorem ReadHandler.Keeps.packetizerGet (h : rd.Keeps P) {p : Packetizer α} {dstLen : Nat} {s : σ}
    {got : Got α σ} (hgot : Pouch.packetizerGet rd.cb p dstLen s = .ok got) (hs : P s) :
    P got.state := by
  by_cases hroom : dstLen ≤ packetOverhead
  · simp only [Pouch.packetizerGet, hroom, if_true] at hgot
    cases hgot
    exact hs
  · simp only [Pouch.packetizerGet, hroom, if_false] at hgot
    cases hfill : p.fill with
    | buffer src =>
      simp only [hfill] at hgot
      split_ifs at hgot
      all_goals
        cases hgot
        exact hs
    | callback arg =>
      cases hcb : rd.cb arg (dstLen - packetOverhead) s with
      | error e => simp [hfill, hcb] at hgot
      | ok answer =>
        obtain ⟨⟨result, bytes⟩, t⟩ := answer
        have ht := h.cb arg _ s _ t hcb hs
        simp only [hfill, hcb] at hgot
        split_ifs at hgot
        all_goals
          cases hgot
          exact ht

theorem ReadHandler.Keeps.chrcRead (h : rd.Keeps P) {malloc : Bool} {len offset : UInt16}
    {c next : ReadCtx α σ} {ret : ReadRet}
    (hread : Pouch.chrcRead rd malloc len offset c = .ok (ret, next)) (hc : P c.state) :
    P next.state := by
  have hfirst : P (chrcPacketizer rd malloc c).2 := by
    cases hp : c.packetizer with
    | some p => simpa [chrcPacketizer, hp] using hc
    | none => simpa [chrcPacketizer, hp] using h.start malloc c.state hc
  rw [Pouch.chrcRead] at hread
  split_ifs at hread
  · cases hread
    exact hc
  · cases hmade : chrcPacketizer rd malloc c with
    | mk made t =>
    rw [hmade] at hfirst
    cases made with
    | error ret =>
      simp only [hmade] at hread
      cases hread
      exact hfirst
    | ok made =>
      cases made with
      | none => simp [hmade] at hread
      | some p =>
        cases hgot : Pouch.packetizerGet rd.cb p len.toNat t with
        | error e => simp [hmade, hgot] at hread
        | ok got =>
          have hstate := h.packetizerGet hgot hfirst
          simp only [hmade, hgot] at hread
          cases hresult : got.result with
          | error | noMoreData | moreData | emptyPayload =>
            simp only [hresult] at hread
            cases hread
            exact hstate

end

def ReadRet.fragment : ReadRet → Option (Fragment UInt8)
  | .value bytes => (packetizerDecode bytes).map fun d => ⟨d.1, d.2.1, d.2.2⟩
  | _ => none

def peerReceive (r : Option Buf) (ret : ReadRet) : Option Buf × Option Buf :=
  match ret.fragment with
  | none => (r, none)
  | some f => receive r f

section
variable {σ : Type*}

/- A characteristic whose data is at hand when the first packet is read: what there is to
   read in a state, what a transfer has left of it, and the states in which a transfer can
   be. The context is all that callbacks are given. -/
structure Readable (rd : ReadHandler Unit σ Unit) (current : σ → Option Buf) (rest : σ → Buf)
    (Running : σ → Prop) : Prop where
  refused : ∀ malloc s, current s = none →
    ∃ ret t, rd.start malloc s = (.error ret, t) ∧ ret.fragment = none ∧ current t = none
  started : ∀ s data, current s = some data → ∃ fill t,
    rd.start true s = (.ok (some ⟨fill, true, none⟩), t) ∧ current t = some data ∧
      (fill = .buffer data ∨ fill = .callback () ∧ rest t = data ∧ Running t)
  filled : ∀ n s, 0 < n → Running s → ∃ t,
    rd.cb () n s = .ok ((if (rest s).length ≤ n then .noMoreData else .moreData,
      (rest s).take n), t) ∧ rest t = (rest s).drop n ∧ Running t ∧ current t = current s
  failed : rd.failed.fragment = none

def Packetizer.left (rest : σ → Buf) (p : Packetizer Unit) (s : σ) : Buf :=
  match p.fill with
  | .buffer src => src
  | .callback _ => rest s

def Packetizer.Ready (Running : σ → Prop) (p : Packetizer Unit) (s : σ) : Prop :=
  p.fill = .callback () → Running s

def Packetizer.sender (rest : σ → Buf) (p : Packetizer Unit) (s : σ) : Sender UInt8 :=
  ⟨p.left rest s, !p.isFirst⟩

variable {rd : ReadHandler Unit σ Unit} {current : σ → Option Buf} {rest : σ → Buf}
  {Running : σ → Prop}

theorem fragment_value (first last : Bool) (payload : Buf) :
    (ReadRet.value ((packetFlags first last :: payload).take (packetOverhead + payload.length))).fragment =
      some ⟨payload, first, last⟩ := by
  have hall : (packetFlags first last :: payload).take (packetOverhead + payload.length) =
      packetFlags first last :: payload := List.take_of_length_le (by simp [packetOverhead, Nat.add_comm])
  rw [ReadRet.fragment, hall, packetizerDecode_flags]
  rfl

theorem packetizerGet_fragment (hrd : Readable rd current rest Running) {p : Packetizer Unit} {s : σ}
    (hp : p.Ready Running s) {dstLen : Nat} (hlen : packetOverhead < dstLen) :
    ∃ got, packetizerGet rd.cb p dstLen s = .ok got ∧
      (ReadRet.value (got.packet.take got.dstLen)).fragment =
        some ((p.sender rest s).fragment (dstLen - packetOverhead)) ∧
      current got.state = current s ∧
      (if (p.left rest s).length ≤ dstLen - packetOverhead then got.result = .noMoreData
        else (got.result = .moreData ∧ got.packetizer.Ready Running got.state ∧
          (p.sender rest s).next (dstLen - packetOverhead) =
            some (got.packetizer.sender rest got.state))) := by
  have hroom : ¬ dstLen ≤ packetOverhead := Nat.not_le.mpr hlen
  have hpos : 0 < dstLen - packetOverhead := Nat.sub_pos_of_lt hlen
  obtain ⟨fill, first, error⟩ := p
  cases fill with
  | buffer src =>
    by_cases hfits : src.length ≤ dstLen - packetOverhead
    · refine ⟨_, by simp only [packetizerGet, hroom, if_false, hfits, if_true]; rfl, ?_, rfl, ?_⟩
      · have hdecode := fragment_value first true src
        simpa [Packetizer.sender, Packetizer.left, Sender.fragment, hfits,
          List.take_of_length_le hfits, packetFlags] using hdecode
      · simp [Packetizer.left, hfits]
    · have htake : (src.take (dstLen - packetOverhead)).length = dstLen - packetOverhead :=
        List.length_take_of_le (by omega)
      refine ⟨_, by simp only [packetizerGet, hroom, if_false, hfits]; rfl, ?_, rfl, ?_⟩
      · have hdecode := fragment_value first false (src.take (dstLen - packetOverhead))
        rw [htake] at hdecode
        simpa [Packetizer.sender, Packetizer.left, Sender.fragment, hfits, packetFlags] using hdecode
      · simp [Packetizer.left, hfits, Packetizer.sender, Sender.next, Packetizer.Ready]
  | callback arg =>
    obtain ⟨t, hanswer, hrest, hrunning, hcurrent⟩ :=
      hrd.filled (dstLen - packetOverhead) s hpos (hp rfl)
    by_cases hfits : (rest s).length ≤ dstLen - packetOverhead
    · simp only [hfits, if_true, List.take_of_length_le hfits] at hanswer
      refine ⟨⟨.noMoreData, packetFlags first true :: rest s, packetOverhead + (rest s).length,
        ⟨.callback (), false, error⟩, t⟩, ?_, ?_, hcurrent, ?_⟩
      · simp [packetizerGet, hroom, hanswer, packetFlags]
      · have hdecode := fragment_value first true (rest s)
        simpa [Packetizer.sender, Packetizer.left, Sender.fragment, hfits,
          List.take_of_length_le hfits] using hdecode
      · simp [Packetizer.left, hfits]
    · have htake : ((rest s).take (dstLen - packetOverhead)).length = dstLen - packetOverhead :=
        List.length_take_of_le (by omega)
      have hfull : dstLen - packetOverhead ≠ 0 := Nat.pos_iff_ne_zero.mp hpos
      simp only [hfits, if_false] at hanswer
      refine ⟨⟨.moreData, packetFlags first false :: (rest s).take (dstLen - packetOverhead),
        packetOverhead + (dstLen - packetOverhead), ⟨.callback (), false, error⟩, t⟩,
        ?_, ?_, hcurrent, ?_⟩
      · simp only [packetizerGet, hroom, if_false, hanswer, htake, hfull]
        simp [packetFlags]
      · have hdecode := fragment_value first false ((rest s).take (dstLen - packetOverhead))
        rw [htake] at hdecode
        simpa [Packetizer.sender, Packetizer.left, Sender.fragment, hfits] using hdecode
      · simp [Packetizer.left, hfits, Packetizer.sender, Sender.next, Packetizer.Ready, hrest,
          hrunning]

structure Under (rest : σ → Buf) (Running : σ → Prop) (message : Buf) (p : Packetizer Unit)
    (s : σ) (peer : Option Buf) : Prop where
  ready : p.Ready Running s
  sends : Sends message (p.sender rest s) peer

def About (current : σ → Option Buf) (rest : σ → Buf) (Running : σ → Prop) (c : ReadCtx Unit σ)
    (peer : Option Buf) (about : Option Buf) : Prop :=
  match c.packetizer with
  | none => about = current c.state
  | some p => ∃ message, about = some message ∧ Under rest Running message p c.state peer

def ReadCtx.unsent (rest : σ → Buf) (c : ReadCtx Unit σ) (message : Buf) : Nat :=
  match c.packetizer with
  | none => message.length
  | some p => (p.left rest c.state).length

/- What a read can do: nothing, as it asks for a later part of the value; fail, when there is
   nothing to read or no room; send a packet that is not the last; or send the last one. -/
inductive ReadStep (rest : σ → Buf) (Running : σ → Prop) (c : ReadCtx Unit σ) (peer : Option Buf)
    (about : Option Buf) (len offset : UInt16) (ret : ReadRet) (next : ReadCtx Unit σ) : Prop
  | nothing (later : offset ≠ 0) (silent : ret.fragment = none) (same : next = c)
  | fails (why : about = none ∨ ¬ 2 ≤ len.toNat) (silent : ret.fragment = none)
      (freed : next.packetizer = none)
  | further {message : Buf} (p : Packetizer Unit) (is : about = some message)
      (kept : next.packetizer = some p)
      (under : Under rest Running message p next.state (peerReceive peer ret).1)
      (out : (peerReceive peer ret).2 = none)
      (less : next.unsent rest message < c.unsent rest message)
  | whole {message : Buf} (is : about = some message) (freed : next.packetizer = none)
      (out : (peerReceive peer ret).2 = some message)

theorem chrcPacketizer_cases (hrd : Readable rd current rest Running) {c : ReadCtx Unit σ}
    {peer about : Option Buf} (h : About current rest Running c peer about) :
    (about = none ∧ ∃ ret t, chrcPacketizer rd true c = (.error ret, t) ∧ ret.fragment = none ∧
      current t = current c.state) ∨
    ∃ p t message, chrcPacketizer rd true c = (.ok (some p), t) ∧ current t = current c.state ∧
      about = some message ∧ Under rest Running message p t peer ∧
      (p.left rest t).length = c.unsent rest message := by
  cases hp : c.packetizer with
  | some p =>
    rw [About, hp] at h
    obtain ⟨message, habout, hunder⟩ := h
    exact Or.inr ⟨p, c.state, message, by rw [chrcPacketizer, hp], rfl, habout, hunder,
      by rw [ReadCtx.unsent, hp]⟩
  | none =>
    rw [About, hp] at h
    subst h
    cases hcurrent : current c.state with
    | none =>
      obtain ⟨ret, t, hstart, hsilent, hnone⟩ := hrd.refused true c.state hcurrent
      exact Or.inl ⟨rfl, ret, t, by rw [chrcPacketizer, hp]; exact hstart, hsilent, hnone⟩
    | some message =>
      obtain ⟨fill, t, hstart, hsame, hfill⟩ := hrd.started c.state message hcurrent
      have hleft : (Packetizer.left rest ⟨fill, true, none⟩ t : Buf) = message := by
        rcases hfill with rfl | ⟨rfl, hrest, -⟩
        · rfl
        · exact hrest
      refine Or.inr ⟨⟨fill, true, none⟩, t, message, by rw [chrcPacketizer, hp]; exact hstart,
        hsame, rfl, ⟨fun hcb => ?_, hleft⟩, by rw [hleft, ReadCtx.unsent, hp]⟩
      rcases hfill with rfl | ⟨rfl, -, hrunning⟩
      · cases hcb
      · exact hrunning

theorem peerReceive_value {peer : Option Buf} {ret : ReadRet} {f : Fragment UInt8}
    (h : ret.fragment = some f) : peerReceive peer ret = receive peer f := by
  rw [peerReceive, h]

theorem peerReceive_silent {peer : Option Buf} {ret : ReadRet} (h : ret.fragment = none) :
    peerReceive peer ret = (peer, none) := by
  rw [peerReceive, h]

/-- Everything a read can do, if the packetizer it needs can be allocated. -/
theorem chrcRead_cases (hrd : Readable rd current rest Running) {c : ReadCtx Unit σ}
    {peer about : Option Buf} (h : About current rest Running c peer about)
    (len offset : UInt16) :
    ∃ ret next, chrcRead rd true len offset c = .ok (ret, next) ∧
      current next.state = current c.state ∧
      ReadStep rest Running c peer about len offset ret next := by
  by_cases hoffset : offset = 0
  · rcases chrcPacketizer_cases hrd h with
      ⟨hnone, ret, t, hstart, hsilent, hsame⟩ | ⟨p, t, message, hstart, hsame, habout, hunder, hlen⟩
    · exact ⟨ret, ⟨none, t⟩, by simp [chrcRead, hoffset, hstart], hsame,
        .fails (Or.inl hnone) hsilent rfl⟩
    · by_cases hroom : len.toNat ≤ packetOverhead
      · refine ⟨rd.failed, ⟨none, t⟩, by simp [chrcRead, hoffset, hstart, packetizerGet, hroom],
          hsame, .fails (Or.inr ?_) hrd.failed rfl⟩
        simp only [packetOverhead] at hroom
        omega
      · obtain ⟨got, hgot, hfragment, hcurrent, hresult⟩ :=
          packetizerGet_fragment hrd hunder.ready (Nat.lt_of_not_le hroom)
        have hstep := hunder.sends.step (len.toNat - packetOverhead)
        have hreceive : peerReceive peer _ = _ := peerReceive_value hfragment
        by_cases hlast : (p.left rest t).length ≤ len.toNat - packetOverhead
        · rw [if_pos hlast] at hresult
          refine ⟨_, ⟨none, got.state⟩, by simp [chrcRead, hoffset, hstart, hgot, hresult]; rfl,
            hcurrent.trans hsame, .whole habout rfl ?_⟩
          rw [hreceive, hstep.1]
          exact if_pos hlast
        · rw [if_neg hlast] at hresult
          obtain ⟨hmore, hready, hnext⟩ := hresult
          refine ⟨_, ⟨some got.packetizer, got.state⟩,
            by simp [chrcRead, hoffset, hstart, hgot, hmore]; rfl, hcurrent.trans hsame,
            .further got.packetizer habout rfl ⟨hready, ?_⟩ ?_ ?_⟩
          · rw [hreceive]
            exact hstep.2 _ hnext
          · rw [hreceive, hstep.1]
            exact if_neg hlast
          · have hdrop : got.packetizer.left rest got.state =
                (p.left rest t).drop (len.toNat - packetOverhead) := by
              have hrest := hnext
              rw [Sender.next] at hrest
              simp only [Packetizer.sender, hlast, if_false, Option.some.injEq, Sender.mk.injEq]
                at hrest
              exact hrest.1.symm
            rw [← hlen, ReadCtx.unsent]
            simp only [hdrop, List.length_drop]
            omega
  · exact ⟨.value [], c, by simp [chrcRead, hoffset], rfl, .nothing hoffset rfl rfl⟩

end

structure ReadRun (α σ : Type*) where
  ctx : ReadCtx α σ
  peer : Option Buf

inductive ReadOp (ω : Type*) where
  | read (malloc : Bool) (len offset : UInt16)
  | other (op : ω)

def ReadOp.isRead {ω : Type*} : ReadOp ω → Bool
  | .read _ _ _ => true
  | .other _ => false

def ReadOp.Allocates {ω : Type*} : ReadOp ω → Prop
  | .read malloc _ _ => malloc = true
  | .other _ => True

def ReadOp.Serves {ω : Type*} : ReadOp ω → Prop
  | .read malloc len offset => malloc = true ∧ offset = 0 ∧ 2 ≤ len.toNat
  | .other _ => True

section
variable {α σ ε ω : Type*} (rd : ReadHandler α σ ε) (act : σ → ω → σ)

def ReadRun.boot (s : σ) : ReadRun α σ := ⟨⟨none, s⟩, none⟩

def readStep (r : ReadRun α σ) : ReadOp ω → ReadRun α σ × Option Buf
  | .read malloc len offset =>
    match chrcRead rd malloc len offset r.ctx with
    | .error _ => (r, none)
    | .ok (ret, ctx) => (⟨ctx, (peerReceive r.peer ret).1⟩, (peerReceive r.peer ret).2)
  | .other op => ({ r with ctx := { r.ctx with state := act r.ctx.state op } }, none)

abbrev readFinal : ReadRun α σ → List (ReadOp ω) → ReadRun α σ := final (readStep rd act)

/- After u a transfer goes on whose first read was the one after w, or none does and w is u. -/
structure BegunAt (s : σ) (u w : List (ReadOp ω)) : Prop where
  front : w <+: u
  idle : (readFinal rd act (.boot s) w).ctx.packetizer = none
  since : ∀ y, w <+: y → y <+: u → (readFinal rd act (.boot s) y).ctx.packetizer = none → y = w

structure Undisturbed (rest : σ → Buf) (Running : σ → Prop) : Prop where
  rest : ∀ s op, rest (act s op) = rest s
  running : ∀ s op, Running s → Running (act s op)

end

section
variable {σ ω : Type*} {rd : ReadHandler Unit σ Unit} {act : σ → ω → σ} {current : σ → Option Buf}
  {rest : σ → Buf} {Running : σ → Prop}

theorem readFinal_invariant {P : σ → Prop} (hrd : rd.Keeps P) (hact : ∀ s op, P s → P (act s op))
    {s : σ} (hs : P s) (ops : List (ReadOp ω)) :
    P (readFinal rd act (.boot s) ops).ctx.state := by
  apply final_invariant (readStep rd act) (P := fun r => P r.ctx.state) _ _ _ hs
  intro r op hr
  cases op with
  | other op => exact hact _ _ hr
  | read malloc len offset =>
    cases hread : chrcRead rd malloc len offset r.ctx with
    | error e => simpa [readStep, hread] using hr
    | ok out =>
      obtain ⟨ret, next⟩ := out
      simpa [readStep, hread] using hrd.chrcRead hread hr

theorem BegunAt.refl {s : σ} {u : List (ReadOp ω)}
    (h : (readFinal rd act (.boot s) u).ctx.packetizer = none) : BegunAt rd act s u u where
  front := List.prefix_rfl
  idle := h
  since _ hl hr _ := (hl.eq_of_length_le hr.length_le).symm

theorem BegunAt.snoc {s : σ} {u w : List (ReadOp ω)} (h : BegunAt rd act s u w) (op : ReadOp ω)
    (hbusy : (readFinal rd act (.boot s) (u++[op])).ctx.packetizer ≠ none) :
    BegunAt rd act s (u++[op]) w where
  front := h.front.trans (List.prefix_append u [op])
  idle := h.idle
  since y hl hr hidle := by
    rcases List.prefix_concat_iff.mp hr with rfl | hr
    · exact absurd hidle hbusy
    · exact h.since y hl hr hidle

theorem Under.other (hact : Undisturbed act rest Running) {message : Buf} {p : Packetizer Unit}
    {s : σ} {peer : Option Buf} (h : Under rest Running message p s peer) (op : ω) :
    Under rest Running message p (act s op) peer where
  ready hcb := hact.running s op (h.ready hcb)
  sends := by
    have hleft : p.left rest (act s op) = p.left rest s := by
      cases hfill : p.fill with
      | buffer src => simp [Packetizer.left, hfill]
      | callback arg => simp [Packetizer.left, hfill, hact.rest]
    rw [Packetizer.sender, hleft]
    exact h.sends

/-- At any time, the transfer that goes on is one of what was current when it began. -/
theorem readFinal_about (hrd : Readable rd current rest Running)
    (hact : Undisturbed act rest Running) (s : σ) (u : List (ReadOp ω))
    (hall : ∀ op ∈ u, op.Allocates) :
    ∃ w about, BegunAt rd act s u w ∧ current (readFinal rd act (.boot s) w).ctx.state = about ∧
      About current rest Running (readFinal rd act (.boot s) u).ctx
        (readFinal rd act (.boot s) u).peer about := by
  induction u using List.reverseRecOn with
  | nil => exact ⟨[], _, .refl rfl, rfl, rfl⟩
  | append_singleton u op ih =>
    obtain ⟨w, about, hbegun, hcurrent, habout⟩ := ih fun o ho => hall o (List.mem_append_left _ ho)
    have hidle : (readFinal rd act (.boot s) (u++[op])).ctx.packetizer = none →
        ∃ w about, BegunAt rd act s (u++[op]) w ∧
          current (readFinal rd act (.boot s) w).ctx.state = about ∧
          About current rest Running (readFinal rd act (.boot s) (u++[op])).ctx
            (readFinal rd act (.boot s) (u++[op])).peer about := fun hnone =>
      ⟨u++[op], _, .refl hnone, rfl, by rw [About, hnone]⟩
    have hsnoc := final_snoc (readStep rd act) (.boot s) u op
    cases op with
    | read malloc len offset =>
      obtain rfl : malloc = true := hall (.read malloc len offset) (by simp)
      obtain ⟨ret, next, hread, hsame, hstep⟩ := chrcRead_cases hrd habout len offset
      have hnext : readFinal rd act (.boot s) (u++[.read true len offset]) =
          ⟨next, (peerReceive (readFinal rd act (.boot s) u).peer ret).1⟩ := by
        rw [readFinal, hsnoc, readStep, hread]
      cases hstep with
      | nothing later silent same =>
        rw [peerReceive_silent silent, same] at hnext
        cases hp : (readFinal rd act (.boot s) u).ctx.packetizer with
        | none => exact hidle (by rw [hnext]; exact hp)
        | some p =>
          refine ⟨w, about, hbegun.snoc _ ?_, hcurrent, by rw [hnext]; exact habout⟩
          rw [hnext, hp]
          exact Option.some_ne_none p
      | fails why silent freed => exact hidle (by rw [hnext]; exact freed)
      | @further message p is kept under out less =>
        refine ⟨w, about, hbegun.snoc _ ?_, hcurrent, ?_⟩
        · rw [hnext, kept]
          exact Option.some_ne_none p
        · rw [hnext, About, kept]
          exact ⟨message, is, under⟩
      | whole is freed out => exact hidle (by rw [hnext]; exact freed)
    | other op =>
      have hnext : readFinal rd act (.boot s) (u++[.other op]) =
          { readFinal rd act (.boot s) u with
            ctx := { (readFinal rd act (.boot s) u).ctx with
              state := act (readFinal rd act (.boot s) u).ctx.state op } } := hsnoc
      cases hp : (readFinal rd act (.boot s) u).ctx.packetizer with
      | none => exact hidle (by rw [hnext]; exact hp)
      | some p =>
        rw [About, hp] at habout
        obtain ⟨message, his, hunder⟩ := habout
        refine ⟨w, about, hbegun.snoc _ ?_, hcurrent, ?_⟩
        · rw [hnext, hp]
          exact Option.some_ne_none p
        · rw [hnext, About, hp]
          exact ⟨message, his, hunder.other hact op⟩

/-- A message that the peer puts together is what was current when its transfer began. -/
theorem readStep_message (hrd : Readable rd current rest Running)
    (hact : Undisturbed act rest Running) (s : σ) (u : List (ReadOp ω)) (op : ReadOp ω)
    (hall : ∀ o ∈ u++[op], o.Allocates) (message : Buf)
    (hout : (readStep rd act (readFinal rd act (.boot s) u) op).2 = some message) :
    ∃ w, BegunAt rd act s u w ∧
      current (readFinal rd act (.boot s) w).ctx.state = some message := by
  obtain ⟨w, about, hbegun, hcurrent, habout⟩ :=
    readFinal_about hrd hact s u fun o ho => hall o (List.mem_append_left _ ho)
  cases op with
  | other op => cases hout
  | read malloc len offset =>
    obtain rfl : malloc = true := hall (.read malloc len offset) (by simp)
    obtain ⟨ret, next, hread, hsame, hstep⟩ := chrcRead_cases hrd habout len offset
    simp only [readStep, hread] at hout
    refine ⟨w, hbegun, hcurrent.trans ?_⟩
    cases hstep with
    | nothing later silent same =>
      rw [peerReceive_silent silent] at hout
      cases hout
    | fails why silent freed =>
      rw [peerReceive_silent silent] at hout
      cases hout
    | further p is kept under out less =>
      rw [out] at hout
      cases hout
    | whole is freed out =>
      rw [out] at hout
      rw [is, Option.some.inj hout]

theorem readStep_current (hrd : Readable rd current rest Running)
    (hact : Undisturbed act rest Running) (s : σ) (u : List (ReadOp ω)) (len offset : UInt16)
    (hall : ∀ o ∈ u, o.Allocates) :
    current (readFinal rd act (.boot s) (u++[.read true len offset])).ctx.state =
      current (readFinal rd act (.boot s) u).ctx.state := by
  obtain ⟨w, about, hbegun, hcurrent, habout⟩ := readFinal_about hrd hact s u hall
  obtain ⟨ret, next, hread, hsame, hstep⟩ := chrcRead_cases hrd habout len offset
  rw [readFinal, final_snoc, readStep, hread]
  exact hsame

theorem unsent_other (hact : Undisturbed act rest Running) (c : ReadCtx Unit σ) (message : Buf)
    (op : ω) : ({ c with state := act c.state op } : ReadCtx Unit σ).unsent rest message =
      c.unsent rest message := by
  cases hp : c.packetizer with
  | none => simp [ReadCtx.unsent, hp]
  | some p =>
    cases hfill : p.fill with
    | buffer src => simp [ReadCtx.unsent, hp, Packetizer.left, hfill]
    | callback arg => simp [ReadCtx.unsent, hp, Packetizer.left, hfill, hact.rest]

theorem readStep_serves (hrd : Readable rd current rest Running) {r : ReadRun Unit σ} {message : Buf}
    (habout : About current rest Running r.ctx r.peer (some message)) {len : UInt16}
    (hlen : 2 ≤ len.toNat) :
    (readStep rd act r (.read true len 0)).2 = some message ∨
    ∃ p, (readStep rd act r (.read true len 0)).1.ctx.packetizer = some p ∧
      Under rest Running message p (readStep rd act r (.read true len 0)).1.ctx.state
        (readStep rd act r (.read true len 0)).1.peer ∧
      (readStep rd act r (.read true len 0)).1.ctx.unsent rest message <
        r.ctx.unsent rest message := by
  obtain ⟨ret, next, hread, hsame, hstep⟩ := chrcRead_cases hrd habout len 0
  simp only [readStep, hread]
  cases hstep with
  | nothing later silent same => exact absurd rfl later
  | fails why silent freed =>
    rcases why with hnone | hshort
    · cases hnone
    · exact absurd hlen hshort
  | further p is kept under out less =>
    cases is
    exact Or.inr ⟨p, kept, under, less⟩
  | whole is freed out =>
    cases is
    exact Or.inl out

/-- A transfer that has begun is over after as many reads as there are bytes left, and one. -/
theorem outputs_under (hrd : Readable rd current rest Running)
    (hact : Undisturbed act rest Running) {message : Buf} (ops : List (ReadOp ω))
    (hall : ∀ op ∈ ops, op.Serves) {r : ReadRun Unit σ} {p : Packetizer Unit}
    (hp : r.ctx.packetizer = some p) (hunder : Under rest Running message p r.ctx.state r.peer)
    (hcount : r.ctx.unsent rest message < ops.countP ReadOp.isRead) :
    some message ∈ outputs (readStep rd act) r ops := by
  induction ops generalizing r p with
  | nil => exact absurd hcount (Nat.not_lt_zero _)
  | cons op ops ih =>
    have hrest : ∀ o ∈ ops, o.Serves := fun o ho => hall o (List.mem_cons_of_mem _ ho)
    rw [outputs_cons, List.mem_cons]
    cases op with
    | other op =>
      rw [List.countP_cons_of_neg (by simp [ReadOp.isRead])] at hcount
      refine Or.inr (ih hrest (p := p) hp (hunder.other hact op) ?_)
      rw [← unsent_other hact r.ctx message op] at hcount
      exact hcount
    | read malloc len offset =>
      obtain ⟨rfl, rfl, hlen⟩ : malloc = true ∧ offset = 0 ∧ 2 ≤ len.toNat :=
        hall (.read malloc len offset) List.mem_cons_self
      rw [List.countP_cons_of_pos (by simp [ReadOp.isRead])] at hcount
      have habout : About current rest Running r.ctx r.peer (some message) := by
        rw [About, hp]
        exact ⟨message, rfl, hunder⟩
      rcases (readStep_serves hrd habout hlen : (readStep rd act r (.read true len 0)).2 = _ ∨ _) with hout | ⟨q, hq, hnext, hless⟩
      · exact Or.inl hout.symm
      · exact Or.inr (ih hrest hq hnext (by omega))

/-- From any time at which no transfer goes on, what is current then comes whole. -/
theorem outputs_current (hrd : Readable rd current rest Running)
    (hact : Undisturbed act rest Running) {r : ReadRun Unit σ} (hidle : r.ctx.packetizer = none)
    {message : Buf} (hcurrent : current r.ctx.state = some message) {len : UInt16}
    (hlen : 2 ≤ len.toNat) (ops : List (ReadOp ω)) (hall : ∀ op ∈ ops, op.Serves)
    (hcount : message.length ≤ ops.countP ReadOp.isRead) :
    some message ∈ outputs (readStep rd act) r (.read true len 0 :: ops) := by
  have habout : About current rest Running r.ctx r.peer (some message) := by
    rw [About, hidle]
    exact hcurrent.symm
  have hunsent : r.ctx.unsent rest message = message.length := by rw [ReadCtx.unsent, hidle]
  rw [outputs_cons, List.mem_cons]
  rcases (readStep_serves hrd habout hlen : (readStep rd act r (.read true len 0)).2 = _ ∨ _) with hout | ⟨q, hq, hnext, hless⟩
  · exact Or.inl hout.symm
  · exact Or.inr (outputs_under hrd hact ops hall hq hnext (by omega))

end
end Pouch
