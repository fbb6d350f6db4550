import PouchNode.ComponentOrder

/-! Manifests as they lie in memory, and which of them are passed on whole. The loop over the
components goes on wherever the map of the last one was left. -/
namespace Pouch
open Loop

section
variable {env : ManifestEnv} {cfg : OtaConfig} {payloadEnd : Nat} {c : ComponentLayout}
  {s : ManifestLoop} {fuel : Nat}

theorem componentsStep_ended (h : (zcborListOrMapEnd env.mem s.decoder).1 = true) :
    componentsStep env cfg fuel s =
      some (.inr (true, { s with decoder := (zcborListOrMapEnd env.mem s.decoder).2 })) := by
  simp only [componentsStep, h, if_true]

theorem componentsStep_stuck (cfg : OtaConfig) (hlib : env.lib.Lawful env.mem)
    (h : (zcborListOrMapEnd env.mem s.decoder).1 = false)
    (htype : zcborMajorType (env.mem s.decoder.zsd.payload) ≠ .map) :
    ∃ d, ∀ fuel, componentsStep env cfg fuel s = some (.inr (false, { s with decoder := d })) := by
  have hstart : env.lib.mapStartDecode s.decoder.zsd = none := by
    cases hstart : env.lib.mapStartDecode s.decoder.zsd with
    | none => rfl
    | some z => exact absurd (hlib.mapStart _ _ hstart).2 htype
  have hzsd := (zcborListOrMapEnd_zsd env.mem s.decoder).1
  refine ⟨⟨s.decoder.zsd, (zcborListOrMapEnd env.mem s.decoder).2.looked, ()⟩, fun fuel => ?_⟩
  simp only [componentsStep, h, Bool.false_eq_true, if_false, zcborMapDecode, Decoder.withWorld, hzsd,
    hstart]

theorem ComponentLayout.Lies.not_ended (h : c.Lies env cfg payloadEnd)
    (hlib : env.lib.Lawful env.mem) (hat : s.decoder.zsd.At c.start payloadEnd)
    (hfree : s.decoder.zsd.backups.length < s.decoder.zsd.numBackups) :
    (zcborListOrMapEnd env.mem s.decoder).1 = false := by
  refine zcborListOrMapEnd_false s.decoder hat.elemCount ?_
  rw [(hlib.mapStart _ _ (h.mapStart _ hat hfree)).2]
  decide

theorem ComponentLayout.Lies.step_fails (h : c.Lies env cfg payloadEnd)
    (hlib : env.lib.Lawful env.mem) (hread : ¬ c.Readable)
    (hat : s.decoder.zsd.At c.start payloadEnd)
    (hfree : s.decoder.zsd.backups.length < s.decoder.zsd.numBackups) :
    ∃ n d, ∀ fuel, n < fuel →
      componentsStep env cfg fuel s = some (.inr (false, { s with decoder := d })) := by
  obtain ⟨hzsd, -⟩ := zcborListOrMapEnd_zsd env.mem s.decoder
  obtain ⟨n, e, map, hdecode⟩ := h.fails (d := (zcborListOrMapEnd env.mem s.decoder).2.withWorld
    (newDraft env cfg s.decoder.zsd.payload)) hread (by rw [Decoder.withWorld, hzsd]; exact hat)
    (by rw [Decoder.withWorld, hzsd]; exact hfree) (env.key s.decoder.zsd.payload)
  refine ⟨n, map.decoder.withWorld (), fun fuel hfuel => ?_⟩
  simp only [componentsStep, h.not_ended hlib hat hfree, Bool.false_eq_true, if_false, hzsd,
    hdecode fuel hfuel]

/-- A readable component is passed on, and the loop goes on behind its last requested pair. -/
theorem ComponentLayout.Lies.step (h : c.Lies env cfg payloadEnd) (hlib : env.lib.Lawful env.mem)
    (hread : c.Readable) (hat : s.decoder.zsd.At c.start payloadEnd)
    (hfree : s.decoder.zsd.backups.length < s.decoder.zsd.numBackups) :
    ∃ n d stop back, (∀ fuel, n < fuel → componentsStep env cfg fuel s =
        some (.inl ⟨d, s.calls++[.receiveOne c.component]⟩)) ∧
      d.zsd = s.decoder.zsd.readTo stop ∧ Chain stop back c.stop ∧ (∀ q ∈ back, q ∈ c.pairs) ∧
      (back = [] ↔ c.EndsRequested) := by
  obtain ⟨hzsd, -⟩ := zcborListOrMapEnd_zsd env.mem s.decoder
  obtain ⟨n, map, stop, back, hdecode, hstop, hchain, hback, hends, hcomponent, hhash⟩ :=
    h.decodes (d := (zcborListOrMapEnd env.mem s.decoder).2.withWorld
      (newDraft env cfg s.decoder.zsd.payload)) hlib hread
      (by rw [Decoder.withWorld, hzsd]; exact hat) (by rw [Decoder.withWorld, hzsd]; exact hfree)
      (env.key s.decoder.zsd.payload)
  refine ⟨n, map.decoder.withWorld (), stop, back, fun fuel hfuel => ?_, ?_, hchain, hback, hends⟩
  · simp only [componentsStep, h.not_ended hlib hat hfree, Bool.false_eq_true, if_false, hzsd,
      hdecode fuel hfuel, hhash, hcomponent]
  · rw [Decoder.withWorld, hstop, Decoder.withWorld, hzsd]

/-- If the loop is left in a component or before the end of one, no map starts there. -/
theorem ComponentLayout.Lies.left_inside (h : c.Lies env cfg payloadEnd) {stop : Nat}
    {back : List (MapPair 4)} (hchain : Chain stop back c.stop) (hback : ∀ q ∈ back, q ∈ c.pairs)
    (hinside : back ≠ [] ∨ c.indefinite = true) :
    zcborMajorType (env.mem stop) ≠ .map ∧ (env.mem stop = 0xFF ↔ back = []) := by
  cases back with
  | nil =>
    obtain rfl : stop = c.stop := hchain
    have hlast := h.last (by simpa using hinside)
    rw [hlast]
    exact ⟨by decide, by simp⟩
  | cons q back =>
    have hq := (h.key q (hback q List.mem_cons_self)).not_simple
    rw [hchain.1] at hq
    refine ⟨hq.2, iff_of_false (fun hbreak => hq.1 ?_) (List.cons_ne_nil _ _)⟩
    rw [hbreak]
    rfl

end

structure ManifestLoop.InList (s : ManifestLoop) (payloadEnd : Nat) (indefinite : Bool)
    (left : Nat) : Prop where
  bound : s.decoder.zsd.payloadEnd = payloadEnd
  kind : s.decoder.zsd.indefinite = indefinite
  count : left ≤ s.decoder.zsd.elemCount
  definite : indefinite = false → s.decoder.zsd.elemCount = left
  free : s.decoder.zsd.backups.length < s.decoder.zsd.numBackups

def ComponentChain : Nat → List ComponentLayout → Nat → Prop
  | address, [], after => address = after
  | address, c :: components, after => c.start = address ∧ ComponentChain c.after components after

/- Every component is readable; before another component, or in a list of indefinite length,
   its map ends with a requested pair; and before another component it is of definite
   length. -/
def PassedWhole (indefinite : Bool) (components : List ComponentLayout) : Prop :=
  ∀ u c v, components = u++c :: v → c.Readable ∧
    (v ≠ [] ∨ indefinite = true → c.EndsRequested) ∧ (v ≠ [] → c.indefinite = false)

theorem passedWhole_nil (indefinite : Bool) : PassedWhole indefinite [] := by
  intro u c v h
  simp at h

theorem passedWhole_cons (indefinite : Bool) (c : ComponentLayout)
    (components : List ComponentLayout) :
    PassedWhole indefinite (c :: components) ↔
      (c.Readable ∧ (components ≠ [] ∨ indefinite = true → c.EndsRequested) ∧
        (components ≠ [] → c.indefinite = false)) ∧ PassedWhole indefinite components := by
  constructor
  · intro h
    exact ⟨h [] c components rfl, fun u d v heq => h (c :: u) d v (by rw [heq, List.cons_append])⟩
  · rintro ⟨hc, h⟩ u d v heq
    cases u with
    | nil =>
      obtain ⟨rfl, rfl⟩ := List.cons.inj heq
      exact hc
    | cons e u => exact h u d v (List.cons.inj heq).2

section
variable {env : ManifestEnv} {cfg : OtaConfig} {payloadEnd : Nat} {s : ManifestLoop}

theorem zcborListOrMapEnd_again {ω : Type*} (mem : Memory) (d : Decoder ω) :
    (zcborListOrMapEnd mem (zcborListOrMapEnd mem d).2).1 = (zcborListOrMapEnd mem d).1 := by
  cases hindefinite : d.zsd.indefinite with
  | true => simp [zcborListOrMapEnd, Decoder.look, hindefinite]
  | false => simp [zcborListOrMapEnd, hindefinite]

theorem componentsStep_last (cfg : OtaConfig) (hlib : env.lib.Lawful env.mem)
    (htype : zcborMajorType (env.mem s.decoder.zsd.payload) ≠ .map) :
    ∃ t, (∀ fuel, componentsStep env cfg fuel s =
        some (.inr ((zcborListOrMapEnd env.mem s.decoder).1, t))) ∧
      ((zcborListOrMapEnd env.mem s.decoder).1 = true →
        (zcborListOrMapEnd env.mem t.decoder).1 = true) ∧ t.calls = s.calls := by
  cases hended : (zcborListOrMapEnd env.mem s.decoder).1 with
  | true =>
    refine ⟨_, fun fuel => componentsStep_ended hended, fun _ => ?_, rfl⟩
    rw [zcborListOrMapEnd_again]
    exact hended
  | false =>
    obtain ⟨d, hd⟩ := componentsStep_stuck cfg hlib hended htype
    exact ⟨_, hd, fun h => (by cases h), rfl⟩

theorem ManifestLoop.InList.next {indefinite : Bool} {left address : Nat} {t : ManifestLoop}
    (hin : s.InList payloadEnd indefinite (left + 1))
    (hzsd : t.decoder.zsd = s.decoder.zsd.readTo address) : t.InList payloadEnd indefinite left := by
  have hcount := hin.count
  have hdefinite := hin.definite
  constructor
  · rw [hzsd]
    exact hin.bound
  · rw [hzsd]
    exact hin.kind
  · simp only [hzsd, ZcborState.readTo]
    omega
  · intro h
    have hleft := hdefinite h
    simp only [hzsd, ZcborState.readTo]
    omega
  · rw [hzsd]
    exact hin.free

theorem ManifestLoop.InList.ended {indefinite : Bool} (hin : s.InList payloadEnd indefinite 0)
    (hstop : indefinite = true → env.mem s.decoder.zsd.payload = 0xFF) :
    (zcborListOrMapEnd env.mem s.decoder).1 = true := by
  cases indefinite with
  | true => simp [zcborListOrMapEnd, hin.kind, hstop rfl]
  | false => simp [zcborListOrMapEnd, hin.kind, hin.definite rfl]

/-- What becomes of the components of a list. -/
theorem components_run (hlib : env.lib.Lawful env.mem) (indefinite : Bool) (stop : Nat)
    (hstop : indefinite = true → env.mem stop = 0xFF) (components : List ComponentLayout)
    (s : ManifestLoop) (hin : s.InList payloadEnd indefinite components.length)
    (hchain : ComponentChain s.decoder.zsd.payload components stop)
    (hlies : ∀ c ∈ components, c.Lies env cfg payloadEnd) :
    ∃ n b t done, (∀ fuel rounds, n < fuel → n < rounds →
        run (componentsStep env cfg fuel) rounds s = some (b, t)) ∧
      (b = true → (zcborListOrMapEnd env.mem t.decoder).1 = true) ∧
      t.calls = s.calls++done.map ManifestCall.receiveOne ∧
      (b = true ∧ done = components.map ComponentLayout.component ↔
        PassedWhole indefinite components) := by
  induction components generalizing s with
  | nil =>
    obtain rfl : s.decoder.zsd.payload = stop := hchain
    have hended := hin.ended hstop
    refine ⟨0, true, _, [], fun fuel rounds _ hrounds => run_inr (componentsStep_ended hended) hrounds,
      fun _ => ?_, by simp, iff_of_true ⟨rfl, rfl⟩ (passedWhole_nil indefinite)⟩
    rw [zcborListOrMapEnd_again]
    exact hended
  | cons c components ih =>
    have hc := hlies c List.mem_cons_self
    have hcount := hin.count
    rw [List.length_cons] at hcount
    have hat : s.decoder.zsd.At c.start payloadEnd := ⟨hchain.1.symm, hin.bound, by omega⟩
    rw [passedWhole_cons]
    by_cases hread : c.Readable
    · obtain ⟨n, d, address, back, hstep, hzsd, haddress, hback, hends⟩ :=
        hc.step hlib hread hat hin.free
      by_cases hclean : c.EndsRequested ∧ c.indefinite = false
      · -- the next component comes right behind
        obtain ⟨hrequested, hdefinite⟩ := hclean
        obtain rfl := hends.mpr hrequested
        obtain rfl : address = c.stop := haddress
        obtain ⟨n', b, t, done, hrun, hended, hcalls, hiff⟩ := ih
          ⟨d, s.calls++[.receiveOne c.component]⟩ (hin.next hzsd)
          (by
            have hrest := hchain.2
            rw [ComponentLayout.after, hdefinite] at hrest
            rw [hzsd]
            exact hrest)
          (fun c' hc' => hlies c' (List.mem_cons_of_mem _ hc'))
        refine ⟨max n n' + 1, b, t, c.component :: done, fun fuel rounds hfuel hrounds => ?_, hended,
          by rw [hcalls, List.map_cons, List.append_assoc, List.singleton_append], ?_⟩
        · rw [run_inl (hstep fuel (by omega)) (by omega)]
          exact hrun fuel (rounds - 1) (by omega) (by omega)
        · rw [List.map_cons, List.cons.injEq, eq_self_iff_true, true_and, hiff]
          exact ⟨fun h => ⟨⟨hread, fun _ => hrequested, fun _ => hdefinite⟩, h⟩, And.right⟩
      · -- the loop is left inside the map, and the next round is the last
        have hinside : back ≠ [] ∨ c.indefinite = true := by
          by_contra hnot
          push Not at hnot
          exact hclean ⟨hends.mp hnot.1, by simpa using hnot.2⟩
        obtain ⟨htype, hbreak⟩ := hc.left_inside haddress hback hinside
        obtain ⟨t, hlast, hended, hcalls⟩ := componentsStep_last
          (s := ⟨d, s.calls++[.receiveOne c.component]⟩) cfg hlib (by rw [hzsd]; exact htype)
        refine ⟨n + 1, _, t, [c.component], fun fuel rounds hfuel hrounds => ?_, hended, hcalls, ?_⟩
        · rw [run_inl (hstep fuel (by omega)) (by omega)]
          exact run_inr (hlast fuel) (by omega)
        · cases components with
          | cons c' components =>
            refine iff_of_false (fun h => by simpa using h.2) fun h => hclean ?_
            exact ⟨h.1.2.1 (Or.inl (List.cons_ne_nil _ _)), h.1.2.2 (List.cons_ne_nil _ _)⟩
          | nil =>
            have hleft := hin.definite
            simp only [List.map_cons, List.map_nil, and_true, passedWhole_nil, ne_eq, not_true,
              false_or, false_implies, hread, true_and]
            cases indefinite with
            | true => simp [zcborListOrMapEnd, hzsd, ZcborState.readTo, hin.kind, hbreak, hends]
            | false => simp [zcborListOrMapEnd, hzsd, ZcborState.readTo, hin.kind, hleft rfl]
    · obtain ⟨n, d, hstep⟩ := hc.step_fails hlib hread hat hin.free
      refine ⟨n, false, _, [], fun fuel rounds hfuel hrounds => run_inr (hstep fuel hfuel) (by omega),
        fun h => (by cases h), by simp, ?_⟩
      exact iff_of_false (fun h => by cases h.1) fun h => hread h.1.1

end

structure OtherPair where
  key : UInt32
  start : Nat
  value : Nat
  stop : Nat

structure ManifestLayout where
  zsd : ZcborState
  others : List OtherPair
  keyStart : Nat
  listStart : Nat
  listFirst : Nat
  elemCount : Nat
  indefinite : Bool
  components : List ComponentLayout
  stop : Nat

def OtherChain : Nat → List OtherPair → Nat → Prop
  | address, [], after => address = after
  | address, p :: others, after => p.start = address ∧ OtherChain p.stop others after

section
variable (env : ManifestEnv) (cfg : OtaConfig)

structure OtherPair.Lies (payloadEnd : Nat) (p : OtherPair) : Prop where
  key : ∀ z, z.At p.start payloadEnd → env.lib.uint32Decode z = some (p.key, z.readTo p.value)
  other : p.key ≠ manifestKeyComponents
  skipped : ∀ z, z.At p.value payloadEnd → env.lib.anySkip z = some (z.readTo p.stop)

structure ManifestLayout.Lies (m : ManifestLayout) (address len : Nat) : Prop where
  mapStart : env.lib.mapStartDecode (zcborStateD 3 address len) = some m.zsd
  mapCount : 2*m.others.length + 2 ≤ m.zsd.elemCount
  others : ∀ p ∈ m.others, p.Lies env (address + len)
  othersChain : OtherChain m.zsd.payload m.others m.keyStart
  key : ∀ z, z.At m.keyStart (address + len) →
    env.lib.uint32Decode z = some (manifestKeyComponents, z.readTo m.listStart)
  listStart : ∀ z, z.At m.listStart (address + len) → z.backups.length < z.numBackups →
    env.lib.listStartDecode z = some (z.openedAt m.listFirst m.elemCount m.indefinite)
  count : m.components.length ≤ m.elemCount
  definite : m.indefinite = false → m.elemCount = m.components.length
  chain : ComponentChain m.listFirst m.components m.stop
  components : ∀ c ∈ m.components, c.Lies env cfg (address + len)
  last : m.indefinite = true → env.mem m.stop = 0xFF

end

section
variable {env : ManifestEnv} {cfg : OtaConfig} {payloadEnd : Nat} {s : ManifestLoop}

theorem not_ended_of_uint32 (hlib : env.lib.Lawful env.mem) {k : UInt32} {z : ZcborState}
    (hcount : s.decoder.zsd.elemCount ≠ 0)
    (h : env.lib.uint32Decode s.decoder.zsd = some (k, z)) :
    (zcborListOrMapEnd env.mem s.decoder).1 = false := by
  refine zcborListOrMapEnd_false s.decoder hcount ?_
  rw [(hlib.uint32 _ _ _ h).2]
  decide

theorem manifest_others_run (cfg : OtaConfig) (hlib : env.lib.Lawful env.mem) (others : List OtherPair)
    (after : Nat) (s : ManifestLoop) (hbound : s.decoder.zsd.payloadEnd = payloadEnd)
    (hcount : 2*others.length ≤ s.decoder.zsd.elemCount)
    (hchain : OtherChain s.decoder.zsd.payload others after)
    (hlies : ∀ p ∈ others, p.Lies env payloadEnd) :
    ∃ d, (∀ fuel rounds, others.length < rounds → run (manifestStep env cfg fuel) rounds s =
        run (manifestStep env cfg fuel) (rounds - others.length) ⟨d, s.calls⟩) ∧
      d.zsd.payload = after ∧ d.zsd.elemCount = s.decoder.zsd.elemCount - 2*others.length ∧
      s.decoder.zsd.SameContext d.zsd := by
  induction others generalizing s with
  | nil => exact ⟨s.decoder, fun _ _ _ => rfl, hchain, by simp, ⟨rfl, rfl, rfl, rfl⟩⟩
  | cons p others ih =>
    have hp := hlies p List.mem_cons_self
    rw [List.length_cons] at hcount
    have hkey := hp.key s.decoder.zsd ⟨hchain.1.symm, hbound, by omega⟩
    have hskip := hp.skipped (s.decoder.zsd.readTo p.value)
      ⟨rfl, hbound, by simp only [ZcborState.readTo]; omega⟩
    have hended := not_ended_of_uint32 hlib (s := s) (by omega) hkey
    obtain ⟨hzsd, -⟩ := zcborListOrMapEnd_zsd env.mem s.decoder
    have hstep : ∃ d : Decoder Unit, (∀ fuel, manifestStep env cfg fuel s =
        some (.inl ⟨d, s.calls⟩)) ∧ d.zsd = (s.decoder.zsd.readTo p.value).readTo p.stop := by
      refine ⟨⟨(s.decoder.zsd.readTo p.value).readTo p.stop,
        (zcborListOrMapEnd env.mem s.decoder).2.looked, ()⟩, fun fuel => ?_, rfl⟩
      simp only [manifestStep, hended, Bool.false_eq_true, if_false, hzsd, hkey, hp.other, hskip]
    obtain ⟨d, hstep, hd⟩ := hstep
    obtain ⟨e, hrun, hpayload, helem, hcontext⟩ := ih ⟨d, s.calls⟩ (by rw [hd]; exact hbound)
      (by rw [hd]; simp only [ZcborState.readTo]; omega) (by rw [hd]; exact hchain.2)
      (fun q hq => hlies q (List.mem_cons_of_mem _ hq))
    refine ⟨e, fun fuel rounds hrounds => ?_, hpayload, ?_, ?_⟩
    · rw [List.length_cons] at hrounds ⊢
      rw [run_inl (hstep fuel) (by omega), hrun fuel (rounds - 1) (by omega)]
      congr 1
      omega
    · rw [helem, hd, List.length_cons]
      simp only [ZcborState.readTo]
      omega
    · rw [hd] at hcontext
      exact ⟨hcontext.payloadEnd, hcontext.indefinite, hcontext.backups, hcontext.numBackups⟩

/-- The round that comes to the components. If their list is read to its end, the loop over the
manifest ends with it. -/
theorem manifestStep_components {d : Decoder Unit} {zsd list : ZcborState} {calls : List ManifestCall}
    {t : ManifestLoop} {b : Bool} {fuel : Nat}
    (hmore : (zcborListOrMapEnd env.mem d).1 = false)
    (hkey : env.lib.uint32Decode d.zsd = some (manifestKeyComponents, zsd))
    (hlist : env.lib.listStartDecode zsd = some list)
    (hrun : run (componentsStep env cfg fuel) fuel
      ⟨{ (zcborListOrMapEnd env.mem d).2 with zsd := list }, calls⟩ = some (b, t))
    (hended : b = true → (zcborListOrMapEnd env.mem t.decoder).1 = true) (rounds : Nat)
    (hrounds : 1 < rounds) :
    ∃ u, run (manifestStep env cfg fuel) rounds ⟨d, calls⟩ = some u ∧
      u.calls = t.calls++if b then [.complete] else [] := by
  obtain ⟨hzsd, -⟩ := zcborListOrMapEnd_zsd env.mem d
  cases b with
  | false =>
    have hstep : manifestStep env cfg fuel ⟨d, calls⟩ = some (.inr t) := by
      simp only [manifestStep, hmore, Bool.false_eq_true, if_false, hzsd, hkey, if_true, hlist, hrun]
    exact ⟨t, run_inr hstep (by omega), by simp⟩
  | true =>
    have hlast := hended rfl
    have hstep : manifestStep env cfg fuel ⟨d, calls⟩ =
        some (.inl ⟨(zcborListOrMapEnd env.mem t.decoder).2, t.calls++[.complete]⟩) := by
      simp only [manifestStep, hmore, Bool.false_eq_true, if_false, hzsd, hkey, if_true, hlist, hrun,
        hlast]
    -- the decoder is still at the end of the list, which is taken for the end of the manifest
    have hagain := zcborListOrMapEnd_again env.mem t.decoder
    rw [hlast] at hagain
    have hend : manifestStep env cfg fuel
          ⟨(zcborListOrMapEnd env.mem t.decoder).2, t.calls++[.complete]⟩ = some (.inr
        ⟨(zcborListOrMapEnd env.mem (zcborListOrMapEnd env.mem t.decoder).2).2,
          t.calls++[.complete]⟩) := by
      simp only [manifestStep, hagain, if_true]
    exact ⟨_, (run_inl hstep (by omega)).trans (run_inr hend (by omega)), rfl⟩

/-- What has been passed on is the whole of the components, with the end behind it, exactly if
all are there and the loop has come to their end. -/
theorem calls_whole_iff (done components : List GoliothOtaComponent) (b : Bool) :
    (done.map ManifestCall.receiveOne++if b then [.complete] else []) =
        components.map ManifestCall.receiveOne++[.complete] ↔
      b = true ∧ done = components := by
  have hinj : Function.Injective ManifestCall.receiveOne := fun _ _ h => ManifestCall.receiveOne.inj h
  cases b with
  | true => simp [hinj.list_map.eq_iff]
  | false =>
    refine iff_of_false (fun h => ?_) (by simp)
    have hmem : ManifestCall.complete ∈ done.map ManifestCall.receiveOne := by
      simp only [Bool.false_eq_true, if_false, List.append_nil] at h
      rw [h]
      simp
    simp at hmem

/-- The whole of a manifest: all components are passed on, in their order, and the end is
reported once, exactly under this condition. -/
theorem ManifestLayout.Lies.passed_iff {m : ManifestLayout} {address len : Nat}
    (h : m.Lies env cfg address len) (hlib : env.lib.Lawful env.mem) :
    (∃ n, ∀ fuel, n < fuel → ∃ t, otaManifestDecode env cfg fuel address len = some t ∧
      t.calls = m.components.map (fun c => ManifestCall.receiveOne c.component)++[.complete]) ↔
    PassedWhole m.indefinite m.components := by
  obtain ⟨hopens, -⟩ := hlib.mapStart _ _ h.mapStart
  have hcount := h.mapCount
  obtain ⟨d, hothers, hpayload, helem, hcontext⟩ := manifest_others_run cfg hlib m.others
    m.keyStart ⟨⟨m.zsd, [], ()⟩, []⟩ hopens.payloadEnd (by simp only; omega) h.othersChain h.others
  have hbound : d.zsd.payloadEnd = address + len := hcontext.payloadEnd.trans hopens.payloadEnd
  have hbackups : d.zsd.backups = [(0, false)] := hcontext.backups.trans hopens.backups
  have hnum : d.zsd.numBackups = 3 := hcontext.numBackups.trans hopens.numBackups
  simp only at helem
  have hkey := h.key d.zsd ⟨hpayload, hbound, by omega⟩
  have hlist := h.listStart (d.zsd.readTo m.listStart)
    ⟨rfl, hbound, by simp only [ZcborState.readTo]; omega⟩
    (by simp only [ZcborState.readTo, hbackups, hnum]; decide)
  have hmore := not_ended_of_uint32 hlib (s := ⟨d, []⟩) (by simp only; omega) hkey
  obtain ⟨n, b, t, done, hrun, hended, hcalls, hiff⟩ := components_run hlib m.indefinite m.stop
    h.last m.components ⟨{ (zcborListOrMapEnd env.mem d).2 with
      zsd := (d.zsd.readTo m.listStart).openedAt m.listFirst m.elemCount m.indefinite }, []⟩
    ⟨hbound, rfl, h.count, h.definite,
      by simp [ZcborState.openedAt, ZcborState.readTo, hbackups, hnum]⟩
    h.chain h.components
  have hall : ∀ fuel, max n (m.others.length + 2) < fuel → ∃ u,
      otaManifestDecode env cfg fuel address len = some u ∧
        u.calls = done.map ManifestCall.receiveOne++if b then [.complete] else [] := by
    intro fuel hfuel
    obtain ⟨u, hu, hucalls⟩ := manifestStep_components hmore hkey hlist
      (hrun fuel fuel (by omega) (by omega)) hended
      (fuel - m.others.length) (by omega)
    refine ⟨u, ?_, by rw [hucalls, hcalls, List.nil_append]⟩
    simp only [otaManifestDecode, h.mapStart]
    rw [hothers fuel fuel (by omega)]
    exact hu
  rw [← hiff, ← calls_whole_iff, List.map_map]
  constructor
  · rintro ⟨k, hk⟩
    obtain ⟨u, hu, hucalls⟩ := hk (max k (max n (m.others.length + 2)) + 1) (by omega)
    obtain ⟨v, hv, hvcalls⟩ := hall (max k (max n (m.others.length + 2)) + 1) (by omega)
    obtain rfl := Option.some.inj (hu.symm.trans hv)
    exact hvcalls.symm.trans hucalls
  · intro hdone
    refine ⟨max n (m.others.length + 2), fun fuel hfuel => ?_⟩
    obtain ⟨u, hu, hucalls⟩ := hall fuel hfuel
    exact ⟨u, hu, hucalls.trans hdone⟩

end

/-- A map with each requested key once is decoded, with the decoder right behind it, exactly if
its last pair is a requested one, its integers have 32 bits, and every pair is recognised; and
a manifest is passed on whole exactly under `PassedWhole`. -/
theorem map_and_manifest_decode_iff (env : ManifestEnv) (hlib : env.lib.Lawful env.mem) :
    (∀ {ω : Type} (entries : List (ZcborMapEntry ω)) (d : Decoder ω) (zsd : ZcborState)
      (pairs : List (MapPair entries.length)) (after : Nat) (key : ZcborMapKey),
      MapLies env.lib env.mem entries d.zsd zsd pairs after →
      ((∃ n, ∀ fuel, n < fuel → ∃ s,
          zcborMapDecode env.lib env.mem entries fuel key d = some (.ok, s) ∧
            s.decoder.zsd = d.zsd.readTo after ∧ s.pairs = pairs.map MapPair.entry) ↔
        (∃ p, pairs.getLast? = some p ∧ p.entry ≠ none) ∧ (∀ p ∈ pairs, p.key ≠ .otherInt) ∧
          Recognised env.mem entries key pairs)) ∧
    ∀ (cfg : OtaConfig) (m : ManifestLayout) (address len : Nat), m.Lies env cfg address len →
      ((∃ n, ∀ fuel, n < fuel → ∃ t, otaManifestDecode env cfg fuel address len = some t ∧
          t.calls = m.components.map (fun c => ManifestCall.receiveOne c.component)++[.complete]) ↔
        PassedWhole m.indefinite m.components) :=
  ⟨fun _ _ _ _ _ key h => h.decodes_iff hlib key, fun _ _ _ _ h => h.passed_iff hlib⟩

def twoComponentManifest : Buf := [0xA1, 0x03, 0x82]++componentBytes++componentBytes
def uriComponentBytes : Buf := 0xA5 :: componentBytes.drop 1++[0x05, 0x61, 0x78]
def uriManifest : Buf := [0xA1, 0x03, 0x82]++uriComponentBytes++componentBytes

def componentStart (k : Fin 2) : Nat := ramBase + 3 + 76*k

def componentPairs (start : Nat) : List (MapPair 4) :=
  [⟨some ⟨0, by decide⟩, .u32 1, start + 1, start + 2, start + 4⟩,
    ⟨some ⟨1, by decide⟩, .u32 2, start + 4, start + 5, start + 7⟩,
    ⟨some ⟨3, by decide⟩, .u32 3, start + 7, start + 8, start + 74⟩,
    ⟨some ⟨2, by decide⟩, .u32 4, start + 74, start + 75, start + 76⟩]

def componentLayout (k : Fin 2) : ComponentLayout where
  package := [0x61]
  version := [0x32]
  size := 0
  hashStr := hexZeros
  hash := Vector.replicate 32 0
  start := componentStart k
  first := componentStart k + 1
  elemCount := 8
  indefinite := false
  pairs := componentPairs (componentStart k)
  stop := componentStart k + 76

def twoComponentLayout : ManifestLayout where
  zsd := ⟨ramBase + 1, ramBase + 155, 2, false, [(0, false)], 3⟩
  others := []
  keyStart := ramBase + 1
  listStart := ramBase + 2
  listFirst := ramBase + 3
  elemCount := 2
  indefinite := false
  components := [componentLayout 0, componentLayout 1]
  stop := ramBase + 155

theorem forall_componentPairs {start : Nat} {P : MapPair 4 → Prop}
    (h : ∀ i, P ((componentPairs start).get i)) : ∀ p ∈ componentPairs start, P p := by
  intro p hp
  obtain ⟨i, rfl⟩ := List.get_of_mem hp
  exact h i

theorem componentLayout_lies (k : Fin 2) :
    (componentLayout k).Lies (manifestEnv twoComponentManifest) otaDefaults (ramBase + 155) := by
  fin_cases k
  all_goals exact
    { mapStart := fun z hat hfree => short_start .map 2 hat (by decide) (by decide) rfl hfree
      count := by decide
      definite := fun _ => rfl
      chain := ⟨rfl, rfl, rfl, rfl, rfl⟩
      last := fun h => by cases h
      forward := by decide
      key := forall_componentPairs fun i => by
        fin_cases i <;> exact ⟨rfl, fun z hat => short_uint32 hat (by decide) (by decide)⟩
      requested := by decide
      value := forall_componentPairs fun i j hj => by
        fin_cases i <;> cases hj
        · exact ⟨⟨_, 1⟩, by decide, rfl,
            fun z hat => short_tstr (shortHead_one hat (by decide) (by decide)) rfl
              (by rw [hat.payloadEnd]; decide)⟩
        · exact ⟨⟨_, 1⟩, by decide, rfl,
            fun z hat => short_tstr (shortHead_one hat (by decide) (by decide)) rfl
              (by rw [hat.payloadEnd]; decide)⟩
        · exact ⟨⟨_, 64⟩, by decide, by decide,
            fun z hat => short_tstr (shortHead_two hat (by decide) (by decide)) rfl
              (by rw [hat.payloadEnd]; decide)⟩
        · exact fun z hat => short_int32 hat (by decide) (by decide)
      text := forall_componentPairs fun i text hkey => by fin_cases i <;> cases hkey
      unknown := by decide
      skipped := forall_componentPairs fun i hnone => by fin_cases i <;> cases hnone
      once := by decide
      hashLen := rfl
      hex2bin := by decide }

theorem twoComponentLayout_lies :
    twoComponentLayout.Lies (manifestEnv twoComponentManifest) otaDefaults ramBase 155 where
  mapStart := rfl
  mapCount := by decide
  others p hp := by simp [twoComponentLayout] at hp
  othersChain := rfl
  key z hat := short_uint32 hat (by decide) (by decide)
  listStart z hat hfree := short_start .list 1 hat (by decide) (by decide) rfl hfree
  count := by decide
  definite _ := rfl
  chain := ⟨rfl, rfl, rfl⟩
  components c hc := by
    rcases List.mem_pair.mp hc with rfl | rfl
    · exact componentLayout_lies 0
    · exact componentLayout_lies 1
  last h := by cases h

theorem componentLayout_clean (k : Fin 2) :
    (componentLayout k).Readable ∧ (componentLayout k).EndsRequested := by
  refine ⟨fun u p v hsplit hkey => ?_, _, rfl, Option.some_ne_none _⟩
  have hmem : p ∈ componentPairs (componentStart k) := by
    rw [show componentPairs (componentStart k) = u++p :: v from hsplit]
    simp
  exact absurd hkey (forall_componentPairs (P := fun q => q.key ≠ .otherInt)
    (fun i => by fin_cases i <;> exact fun h => by cases h) p hmem)

def unknownFirst : Memory := memoryAt ramBase [0xA2, 0x05, 0x07, 0x01, 0x07]
def unknownLast : Memory := memoryAt ramBase [0xA2, 0x01, 0x07, 0x05, 0x07]
def oneRequested (mem : Memory) : List (ZcborMapEntry Unit) := [.skipping (shortZcbor mem) (.u32 1)]
def shortPair (k : UInt32) (entry : Option (Fin 1)) (start : Nat) : MapPair 1 :=
  ⟨entry, .u32 k, start, start + 1, start + 2⟩

theorem shortPair_lies (mem : Memory) (k : UInt32) (entry : Option (Fin 1)) (start payloadEnd : Nat)
    (hlt : start + 1 < payloadEnd) (hkey : (mem start).toNat < 24)
    (hk : UInt32.ofNat (mem start).toNat = k) (hvalue : (mem (start + 1)).toNat < 24)
    (hentry : entry ≠ none ↔ k = 1) :
    (shortPair k entry start).Lies (shortZcbor mem) mem payloadEnd (oneRequested mem)
      fun _ _ _ => True where
  forward := Nat.lt_add_of_pos_right (by decide)
  key := by
    refine ⟨?_, fun z hat => ?_⟩
    · simp only [shortPair, zcborMajorType, Nat.div_eq_of_lt (Nat.lt_trans hkey (by decide : 24 < 32))]
    · have hdecode := short_uint32 hat (Nat.lt_trans (Nat.lt_succ_self start) hlt) hkey
      exact hdecode.trans (congrArg (fun k => some (k, z.readTo (start + 1))) hk)
  requested i hi := by
    have hk1 : k = 1 := hentry.mp (Option.ne_none_iff_exists'.mpr ⟨i, hi⟩)
    fin_cases i
    simp [shortPair, PairKey.For, oneRequested, ZcborMapEntry.skipping, hk1]
  accepted i d hi hat := by
    fin_cases i
    have hskip : shortSkip mem d.zsd = some (d.zsd.readTo (start + 2)) := short_skip hat hlt hvalue
    refine ⟨d.looked, d.world, trivial, ?_⟩
    simp [oneRequested, ZcborMapEntry.skipping, shortZcbor, hskip, shortPair]
  unknown hnone i hfor := by
    have hk1 : k ≠ 1 := fun hk1 => hentry.mpr hk1 hnone
    fin_cases i
    simp only [shortPair, PairKey.For, oneRequested, ZcborMapEntry.skipping] at hfor
    exact hk1 (EntryKey.u32.inj hfor).symm
  skipped z _ hat := short_skip hat hlt hvalue

theorem unknownFirst_lies :
    MapLies (shortZcbor unknownFirst) unknownFirst (oneRequested unknownFirst)
      (zcborStateD 1 ramBase 5) ⟨ramBase + 1, ramBase + 5, 4, false, [(0, false)], 1⟩
      [shortPair 5 none (ramBase + 1), shortPair 1 (some 0) (ramBase + 3)] (ramBase + 5) where
  start := rfl
  definite := ⟨rfl, rfl⟩
  chain := ⟨rfl, rfl, rfl⟩
  lies p hp := by
    rcases List.mem_pair.mp hp with rfl | rfl
    · exact shortPair_lies unknownFirst 5 none (ramBase + 1) (ramBase + 5) (by decide)
        (by decide) rfl (by decide) (by decide)
    · exact shortPair_lies unknownFirst 1 (some 0) (ramBase + 3) (ramBase + 5) (by decide)
        (by decide) rfl (by decide) (by decide)
  once := by decide

theorem unknownLast_lies :
    MapLies (shortZcbor unknownLast) unknownLast (oneRequested unknownLast)
      (zcborStateD 1 ramBase 5) ⟨ramBase + 1, ramBase + 5, 4, false, [(0, false)], 1⟩
      [shortPair 1 (some 0) (ramBase + 1), shortPair 5 none (ramBase + 3)] (ramBase + 5) where
  start := rfl
  definite := ⟨rfl, rfl⟩
  chain := ⟨rfl, rfl, rfl⟩
  lies p hp := by
    rcases List.mem_pair.mp hp with rfl | rfl
    · exact shortPair_lies unknownLast 1 (some 0) (ramBase + 1) (ramBase + 5) (by decide)
        (by decide) rfl (by decide) (by decide)
    · exact shortPair_lies unknownLast 5 none (ramBase + 3) (ramBase + 5) (by decide)
        (by decide) rfl (by decide) (by decide)
  once := by decide

theorem unknownFirst_and_manifest_decode :
    (∃ n, ∀ fuel, n < fuel → ∃ s, zcborMapDecode (shortZcbor unknownFirst) unknownFirst
        (oneRequested unknownFirst) fuel ⟨.u32, 0, 0⟩ ⟨zcborStateD 1 ramBase 5, [], ()⟩ =
          some (.ok, s) ∧
      s.decoder.zsd = (zcborStateD 1 ramBase 5).readTo (ramBase + 5) ∧
        s.pairs = [none, some ⟨0, by decide⟩]) ∧
    ∃ n, ∀ fuel, n < fuel → ∃ t, otaManifestDecode (manifestEnv twoComponentManifest) otaDefaults fuel
        ramBase 155 = some t ∧
      t.calls = [.receiveOne componentA2, .receiveOne componentA2, .complete] := by
  constructor
  · exact ((map_and_manifest_decode_iff (manifestEnv [0xA2, 0x05, 0x07, 0x01, 0x07])
      (shortZcbor_lawful unknownFirst)).1 (oneRequested unknownFirst)
      ⟨zcborStateD 1 ramBase 5, [], ()⟩ _ _ (ramBase + 5) ⟨.u32, 0, 0⟩ unknownFirst_lies).mpr
      ⟨⟨shortPair 1 (some 0) (ramBase + 3), rfl, by decide⟩, by decide, rfl, rfl, trivial⟩
  · refine ((map_and_manifest_decode_iff (manifestEnv twoComponentManifest) (shortZcbor_lawful _)).2
      otaDefaults twoComponentLayout ramBase 155 twoComponentLayout_lies).mpr ?_
    refine (passedWhole_cons false (componentLayout 0) [componentLayout 1]).mpr
      ⟨⟨(componentLayout_clean 0).1, fun _ => (componentLayout_clean 0).2, fun _ => rfl⟩, ?_⟩
    refine (passedWhole_cons false (componentLayout 1) []).mpr
      ⟨⟨(componentLayout_clean 1).1, fun _ => (componentLayout_clean 1).2, fun _ => rfl⟩,
        passedWhole_nil false⟩

/-- With the other key last, the decoder is left inside the map; and of two components the
second is not passed on if the first has another key behind the requested ones. -/
theorem unknownLast_left_inside :
    MapLies (shortZcbor unknownLast) unknownLast (oneRequested unknownLast)
      (zcborStateD 1 ramBase 5) ⟨ramBase + 1, ramBase + 5, 4, false, [(0, false)], 1⟩
      [shortPair 1 (some 0) (ramBase + 1), shortPair 5 none (ramBase + 3)] (ramBase + 5) ∧
    (∀ fuel, ∃ s, zcborMapDecode (shortZcbor unknownLast) unknownLast (oneRequested unknownLast)
        (fuel + 3) ⟨.u32, 0, 0⟩ ⟨zcborStateD 1 ramBase 5, [], ()⟩ = some (.ok, s) ∧
      s.decoder.zsd.payload = ramBase + 3) ∧
    (otaManifestDecode (manifestEnv uriManifest) otaDefaults 6 ramBase uriManifest.length).map
      ManifestLoop.calls = some [.receiveOne componentA2] := by
  refine ⟨unknownLast_lies, fun fuel => ⟨_, rfl, rfl⟩, ?_⟩
  decide +kernel

end Pouch
