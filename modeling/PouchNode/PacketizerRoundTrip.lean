import PouchNode.Packetizer
import Mathlib.Tactic.ByContra

/-! Packets that are taken out of a packetizer until it has no more data, and what they
decode to: for a buffer, and for whatever a callback fills in. -/
namespace Pouch

section
variable {α σ ε : Type*} (cb : FillCallback α σ ε)

/- The packets of the calls with these sizes, up to the first call that returns NO_MORE_DATA,
   each with the length reported for it. There are none if a call fails or the sizes run out
   before. -/
def packetizerDrain : Packetizer α → σ → List Nat → Option (List (Buf × Nat))
  | _, _, [] => none
  | packetizer, s, dstLen :: sizes =>
    match packetizerGet cb packetizer dstLen s with
    | .error _ => none
    | .ok got =>
      if got.result = .error then none
      else if got.result = .noMoreData then some [(got.packet, got.dstLen)]
      else
        (packetizerDrain got.packetizer got.state sizes).map ((got.packet, got.dstLen) :: ·)

inductive Produces (userArg : α) : σ → List Nat → List Buf → Prop where
  | last {s s' : σ} {dstLen : Nat} {bytes : Buf} (sizes : List Nat)
      (answer : cb userArg (dstLen - packetOverhead) s = .ok ((.noMoreData, bytes), s'))
      (room : bytes.length ≤ dstLen - packetOverhead) :
      Produces userArg s (dstLen :: sizes) [bytes]
  | more {s s' : σ} {dstLen : Nat} {bytes : Buf} {sizes : List Nat} {chunks : List Buf}
      (result : PacketizerResult) (hresult : result = .moreData ∨ result = .emptyPayload)
      (answer : cb userArg (dstLen - packetOverhead) s = .ok ((result, bytes), s'))
      (room : bytes.length ≤ dstLen - packetOverhead)
      (rest : Produces userArg s' sizes chunks) :
      Produces userArg s (dstLen :: sizes) (bytes :: chunks)

end

/- The packets decode to these payloads, with the flags at the two ends and nowhere else, and
   their lengths are reported. Behind packets that have gone before, first is false. -/
structure Carries (first : Bool) (packets : List (Buf × Nat)) (payloads : List Buf) : Prop where
  reported : ∀ packet ∈ packets, packet.2 = packet.1.length
  decoded : packets.map (fun packet => packetizerDecode packet.1) =
    payloads.mapIdx fun i payload =>
      some (payload, first && decide (i = 0), decide (i + 1 = payloads.length))

def packetFlags (first last : Bool) : UInt8 :=
  (if first then packetFirst else 0) ||| (if last then packetLast else 0)

theorem packetizerDecode_flags (first last : Bool) (payload : Buf) :
    packetizerDecode (packetFlags first last :: payload) = some (payload, first, last) := by
  cases first <;> cases last <;> rfl

theorem Carries.last (first : Bool) (bytes : Buf) :
    Carries first [(packetFlags first true :: bytes, packetOverhead + bytes.length)] [bytes] where
  reported packet h := by
    cases List.mem_singleton.mp h
    exact Nat.add_comm _ _
  decoded := by
    simp [packetizerDecode_flags]

theorem Carries.more {packets : List (Buf × Nat)} {chunks : List Buf}
    (h : Carries false packets chunks) (hne : chunks ≠ []) (first : Bool) (bytes : Buf) :
    Carries first
      ((packetFlags first false :: bytes, packetOverhead + bytes.length) :: packets)
      (bytes :: chunks) where
  reported := by
    rw [List.forall_mem_cons]
    exact ⟨Nat.add_comm _ _, h.reported⟩
  decoded := by
    have hpos : chunks.length ≠ 0 := fun hz => hne (List.length_eq_zero_iff.mp hz)
    simp [packetizerDecode_flags, h.decoded, List.mapIdx_cons, hpos.symm]

section
variable {α σ ε : Type*} {cb : FillCallback α σ ε}

theorem Produces.ne_nil {userArg : α} {s : σ} {sizes : List Nat} {chunks : List Buf}
    (h : Produces cb userArg s sizes chunks) : chunks ≠ [] := by
  cases h with
  | last sizes answer room => simp
  | more result hresult answer room rest => simp

theorem Produces.drain {userArg : α} {s : σ} {sizes : List Nat} {chunks : List Buf}
    (h : Produces cb userArg s sizes chunks) (hsizes : ∀ size ∈ sizes, packetOverhead < size)
    (first : Bool) (error : Option PacketizerError) :
    ∃ packets, packetizerDrain cb ⟨.callback userArg, first, error⟩ s sizes = some packets ∧
      Carries first packets chunks := by
  induction h generalizing first error with
  | @last s s' dstLen bytes sizes answer room =>
    have hsize : ¬ dstLen ≤ packetOverhead := Nat.not_le.mpr (hsizes dstLen List.mem_cons_self)
    refine ⟨_, ?_, Carries.last first bytes⟩
    simp [packetizerDrain, packetizerGet, hsize, answer, packetFlags]
  | @more s s' dstLen bytes sizes chunks result hresult answer room rest ih =>
    have hsize : ¬ dstLen ≤ packetOverhead := Nat.not_le.mpr (hsizes dstLen List.mem_cons_self)
    obtain ⟨packets, hdrain, hcarries⟩ := ih
      (fun size hmem => hsizes size (List.mem_cons_of_mem _ hmem)) false error
    refine ⟨_, ?_, hcarries.more rest.ne_nil first bytes⟩
    have hresult' : result ≠ .error ∧ result ≠ .noMoreData := by
      cases hresult with
      | inl h => subst h; decide
      | inr h => subst h; decide
    by_cases hempty : bytes = []
    · simp [packetizerDrain, packetizerGet, hsize, answer, packetFlags, hresult', hempty, hdrain]
    · simp [packetizerDrain, packetizerGet, hsize, answer, packetFlags, hresult', hempty, hdrain]

inductive CutAlong : Buf → List Nat → List Buf → Prop where
  | last (src : Buf) (dstLen : Nat) (sizes : List Nat)
      (fits : src.length ≤ dstLen - packetOverhead) : CutAlong src (dstLen :: sizes) [src]
  | more {src : Buf} {dstLen : Nat} {sizes : List Nat} {chunks : List Buf}
      (long : dstLen - packetOverhead < src.length)
      (rest : CutAlong (src.drop (dstLen - packetOverhead)) sizes chunks) :
      CutAlong src (dstLen :: sizes) (src.take (dstLen - packetOverhead) :: chunks)

theorem exists_cutAlong (sizes : List Nat) (hsizes : ∀ size ∈ sizes, packetOverhead < size)
    (src : Buf) (hlen : src.length < sizes.length) : ∃ chunks, CutAlong src sizes chunks := by
  induction sizes generalizing src with
  | nil => exact absurd hlen (Nat.not_lt_zero _)
  | cons dstLen sizes ih =>
    by_cases hfits : src.length ≤ dstLen - packetOverhead
    · exact ⟨_, .last src dstLen sizes hfits⟩
    · have hroom : packetOverhead < dstLen := hsizes dstLen List.mem_cons_self
      obtain ⟨chunks, hchunks⟩ := ih (fun size h => hsizes size (List.mem_cons_of_mem _ h))
        (src.drop (dstLen - packetOverhead)) (by
          rw [List.length_drop]
          rw [List.length_cons] at hlen
          omega)
      exact ⟨_, .more (Nat.lt_of_not_le hfits) hchunks⟩

structure Pieces (src : Buf) (chunks : List Buf) : Prop where
  flatten : chunks.flatten = src
  inner : ∀ chunk ∈ chunks.dropLast, chunk ≠ []
  count : chunks.length ≤ src.length + 1

theorem CutAlong.ne_nil {src : Buf} {sizes : List Nat} {chunks : List Buf}
    (h : CutAlong src sizes chunks) : chunks ≠ [] := by
  cases h with
  | last dstLen sizes fits => simp
  | more long rest => simp

theorem CutAlong.pieces {src : Buf} {sizes : List Nat} {chunks : List Buf}
    (h : CutAlong src sizes chunks) (hsizes : ∀ size ∈ sizes, packetOverhead < size) :
    Pieces src chunks := by
  induction h with
  | last src dstLen sizes fits => exact ⟨by simp, by simp, by simp⟩
  | @more src dstLen sizes chunks long rest ih =>
    have hroom : packetOverhead < dstLen := hsizes dstLen List.mem_cons_self
    obtain ⟨hflatten, hinner, hcount⟩ := ih fun size h => hsizes size (List.mem_cons_of_mem _ h)
    refine ⟨?_, ?_, ?_⟩
    · rw [List.flatten_cons, hflatten, List.take_append_drop]
    · rw [List.dropLast_cons_of_ne_nil rest.ne_nil, List.forall_mem_cons]
      refine ⟨fun hempty => ?_, hinner⟩
      have hlen := congrArg List.length hempty
      rw [List.length_take, List.length_nil] at hlen
      omega
    · rw [List.length_cons]
      rw [List.length_drop] at hcount
      omega

/-- A buffer is cut along the sizes. -/
theorem CutAlong.drain {src : Buf} {sizes : List Nat} {chunks : List Buf}
    (h : CutAlong src sizes chunks) (hsizes : ∀ size ∈ sizes, packetOverhead < size)
    (first : Bool) (error : Option PacketizerError) (s : σ) :
    ∃ packets, packetizerDrain cb ⟨.buffer src, first, error⟩ s sizes = some packets ∧
      Carries first packets chunks := by
  induction h generalizing first error with
  | last src dstLen sizes fits =>
    have hsize : ¬ dstLen ≤ packetOverhead := Nat.not_le.mpr (hsizes dstLen List.mem_cons_self)
    refine ⟨_, ?_, Carries.last first src⟩
    simp [packetizerDrain, packetizerGet, hsize, fits, packetFlags]
  | @more src dstLen sizes chunks long rest ih =>
    have hsize : ¬ dstLen ≤ packetOverhead := Nat.not_le.mpr (hsizes dstLen List.mem_cons_self)
    have hlong : ¬ src.length ≤ dstLen - packetOverhead := Nat.not_le.mpr long
    have htake : (src.take (dstLen - packetOverhead)).length = dstLen - packetOverhead := by
      rw [List.length_take]
      omega
    obtain ⟨packets, hdrain, hcarries⟩ := ih
      (fun size hmem => hsizes size (List.mem_cons_of_mem _ hmem)) false error
    refine ⟨_, ?_, hcarries.more rest.ne_nil first _⟩
    rw [htake]
    simp [packetizerDrain, packetizerGet, hsize, hlong, packetFlags, hdrain]

end

def deviceCertFillCb : FillCallback Unit Buf Empty := fun _ maxlen cert =>
  let dstLen := min maxlen cert.length
  .ok ((if (cert.drop dstLen).length = 0 then .noMoreData else .moreData, cert.take dstLen),
    cert.drop dstLen)

theorem CutAlong.produces {cert : Buf} {sizes : List Nat} {chunks : List Buf}
    (h : CutAlong cert sizes chunks) : Produces deviceCertFillCb () cert sizes chunks := by
  induction h with
  | last cert dstLen sizes fits =>
    have hanswer : deviceCertFillCb () (dstLen - packetOverhead) cert =
        .ok ((.noMoreData, cert), []) := by
      simp [deviceCertFillCb, Nat.min_eq_right fits]
    exact .last sizes hanswer fits
  | @more cert dstLen sizes chunks long rest ih =>
    have hleft : cert.length - (dstLen - packetOverhead) ≠ 0 := by omega
    have hanswer : deviceCertFillCb () (dstLen - packetOverhead) cert =
        .ok ((.moreData, cert.take (dstLen - packetOverhead)),
          cert.drop (dstLen - packetOverhead)) := by
      simp [deviceCertFillCb, Nat.min_eq_left long.le, hleft]
    exact .more .moreData (Or.inl rfl) hanswer (List.length_take_le _ _) ih

/-- Packets of a buffer of any length and of any sizes greater than 1, and of whatever chunks a
callback fills in, decode to what went in. -/
theorem packetizer_round_trip {α σ ε : Type*} (cb : FillCallback α σ ε) (s : σ) :
    (∀ (src : Buf) (sizes : Nat → Nat), (∀ k, 1 < sizes k) →
      ∀ packetizer, packetizerStartBuffer true src = some packetizer →
      ∃ packets payloads,
        packetizerDrain cb packetizer s ((List.range (src.length + 1)).map sizes) = some packets ∧
        Carries true packets payloads ∧ payloads.flatten = src ∧
        (∀ payload ∈ payloads.dropLast, payload ≠ []) ∧ packets.length ≤ src.length + 1) ∧
    ∀ (userArg : α) (sizes : List Nat) (chunks : List Buf), (∀ size ∈ sizes, 1 < size) →
      Produces cb userArg s sizes chunks →
      ∀ packetizer, packetizerStartCallback true userArg = some packetizer →
      ∃ packets payloads, packetizerDrain cb packetizer s sizes = some packets ∧
        Carries true packets payloads ∧ payloads.flatten = chunks.flatten := by
  constructor
  · rintro src sizes hsizes packetizer ⟨⟩
    have hall : ∀ size ∈ (List.range (src.length + 1)).map sizes, packetOverhead < size := by
      intro size hmem
      obtain ⟨k, -, rfl⟩ := List.mem_map.mp hmem
      exact hsizes k
    obtain ⟨chunks, hcut⟩ := exists_cutAlong _ hall src (by simp)
    obtain ⟨packets, hdrain, hcarries⟩ := hcut.drain hall true none s
    have hpieces := hcut.pieces hall
    have hcount : packets.length = chunks.length := by
      simpa using congrArg List.length hcarries.decoded
    exact ⟨packets, chunks, hdrain, hcarries, hpieces.flatten, hpieces.inner,
      hcount ▸ hpieces.count⟩
  · rintro userArg sizes chunks hsizes hproduces packetizer ⟨⟩
    obtain ⟨packets, hdrain, hcarries⟩ := hproduces.drain hsizes true none
    exact ⟨packets, chunks, hdrain, hcarries, rfl⟩

/-- Three bytes from a buffer in packets of two, and a certificate of three bytes in packets of
three, two and more bytes. -/
theorem packetizer_round_trip_three :
    (∃ packets payloads,
      packetizerDrain deviceCertFillCb ⟨.buffer [1, 2, 3], true, none⟩ [1, 2, 3] [2, 2, 2, 2] =
        some packets ∧ Carries true packets payloads ∧ payloads.flatten = [1, 2, 3] ∧
      (∀ payload ∈ payloads.dropLast, payload ≠ []) ∧ packets.length ≤ 4) ∧
    ∃ packets payloads,
      packetizerDrain deviceCertFillCb ⟨.callback (), true, none⟩ [1, 2, 3] [3, 2, 20] =
        some packets ∧ Carries true packets payloads ∧ payloads.flatten = [1, 2, 3] := by
  have hcut : CutAlong [1, 2, 3] [3, 2, 20] [[1, 2], [3]] :=
    .more (by decide) (.last [3] 2 [20] (by decide))
  exact ⟨(packetizer_round_trip deviceCertFillCb [1, 2, 3]).1 [1, 2, 3] (fun _ => 2)
      (fun _ => by decide) _ rfl,
    (packetizer_round_trip deviceCertFillCb [1, 2, 3]).2 () [3, 2, 20] [[1, 2], [3]] (by decide)
      hcut.produces _ rfl⟩

end Pouch
