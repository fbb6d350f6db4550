import PouchNode.CborBounds
import PouchNode.ManifestOrder

/-! What ota_receive_manifest makes of any bytes: the components that a manifest begins with, up
to the first that cannot be read, go to the upper half one by one. -/
namespace Pouch
open Loop

section
variable (env : ManifestEnv) (cfg : OtaConfig)

inductive ComponentsRead : ZcborState → List GoliothOtaComponent → Bool → Prop where
  | ended {z : ZcborState} (ended : z.Ended env.mem) : ComponentsRead z [] true
  | unread {z : ZcborState} (more : ¬ z.Ended env.mem)
      (unread : ∀ z' draft, ComponentDecodes env cfg z (some (z', draft)) →
        env.hex2bin (draft.hashStr.take goliothOtaComponentHashHexLen) = none) :
      ComponentsRead z [] false
  | component {z z' : ZcborState} {draft : ComponentDraft} {hash : Vector UInt8 32}
      {decoded : List GoliothOtaComponent} {whole : Bool} (more : ¬ z.Ended env.mem)
      (component : ComponentDecodes env cfg z (some (z', draft)))
      (hex2bin : env.hex2bin (draft.hashStr.take goliothOtaComponentHashHexLen) = some hash)
      (rest : ComponentsRead z' decoded whole) :
      ComponentsRead z (draft.component hash :: decoded) whole

end

section
variable {env : ManifestEnv} {cfg : OtaConfig} {z z' : ZcborState} {s : ManifestLoop} {fuel : Nat}
  {decoded : List GoliothOtaComponent} {whole : Bool}

theorem componentsRead_ended (h : z.Ended env.mem) :
    ComponentsRead env cfg z decoded whole ↔ decoded = [] ∧ whole = true := by
  constructor
  · intro hread
    cases hread with
    | ended => exact ⟨rfl, rfl⟩
    | unread more => exact absurd h more
    | component more => exact absurd h more
  · rintro ⟨rfl, rfl⟩
    exact .ended h

theorem componentsRead_more (h : ¬ z.Ended env.mem) {ok : Prop} {draft : ComponentDraft}
    (hcomponent : ∀ z'' w, ComponentDecodes env cfg z (some (z'', w)) ↔ ok ∧ z' = z'' ∧ draft = w)
    (decoded : List GoliothOtaComponent) (whole : Bool) :
    ComponentsRead env cfg z decoded whole ↔
      ((ok → env.hex2bin (draft.hashStr.take goliothOtaComponentHashHexLen) = none) ∧
        decoded = [] ∧ whole = false) ∨
      ∃ hash rest, ok ∧
        env.hex2bin (draft.hashStr.take goliothOtaComponentHashHexLen) = some hash ∧
        decoded = draft.component hash :: rest ∧ ComponentsRead env cfg z' rest whole := by
  constructor
  · intro hread
    cases hread with
    | ended ended => exact absurd ended h
    | unread _ unread =>
      exact Or.inl ⟨fun hok => unread z' draft ((hcomponent z' draft).mpr ⟨hok, rfl, rfl⟩), rfl, rfl⟩
    | component _ component hex2bin rest =>
      obtain ⟨hok, rfl, rfl⟩ := (hcomponent _ _).mp component
      exact Or.inr ⟨_, _, hok, hex2bin, rfl, rest⟩
  · rintro (⟨hunread, rfl, rfl⟩ | ⟨hash, rest, hok, hhash, rfl, hrest⟩)
    · refine .unread h fun z'' w hdecodes => ?_
      obtain ⟨hok, rfl, rfl⟩ := (hcomponent _ _).mp hdecodes
      exact hunread hok
    · exact .component h ((hcomponent _ _).mpr ⟨hok, rfl, rfl⟩) hhash hrest

structure ManifestLoop.Passes (s t : ManifestLoop) (reads : List GoliothOtaComponent → Bool → Prop)
    (complete : List ManifestCall) (decoded : List GoliothOtaComponent) (whole : Bool) : Prop where
  calls : t.calls = s.calls++decoded.map ManifestCall.receiveOne++complete
  reads : ∀ decoded' whole', reads decoded' whole' ↔ decoded' = decoded ∧ whole' = whole

theorem componentsStep_reads (cfg : OtaConfig) (hlib : env.lib.Lawful env.mem)
    (hb : s.decoder.zsd.Bounded) (hfuel : s.decoder.zsd.left < fuel) :
    (∀ b t, componentsStep env cfg fuel s = some (.inr (b, t)) →
      s.Passes t (ComponentsRead env cfg s.decoder.zsd) [] [] b) ∧
    ∀ t, componentsStep env cfg fuel s = some (.inl t) → ∃ component,
      t.calls = s.calls++[.receiveOne component] ∧ ∀ decoded whole,
        ComponentsRead env cfg s.decoder.zsd decoded whole ↔
          ∃ rest, decoded = component :: rest ∧ ComponentsRead env cfg t.decoder.zsd rest whole := by
  obtain ⟨hzsd, -⟩ := zcborListOrMapEnd_zsd env.mem s.decoder
  by_cases hended : s.decoder.zsd.Ended env.mem
  · have hfst := (zcborListOrMapEnd_fst env.mem s.decoder).mpr hended
    simp only [componentsStep, hfst, if_true]
    constructor
    · intro b t h
      cases h
      exact ⟨by simp, fun decoded' whole' => componentsRead_ended hended⟩
    · simp
  · have hfst := zcborListOrMapEnd_more hended
    obtain ⟨ret, map, hdecode, hfollows, -⟩ := component_follows cfg hlib s.decoder.zsd
      (zcborListOrMapEnd env.mem s.decoder).2.looked hb hfuel
    have hread := componentsRead_more hended hfollows.reads
    simp only [componentsStep, hfst, Bool.false_eq_true, if_false, Decoder.withWorld, hzsd, hdecode]
    cases ret with
    | err e =>
      constructor
      · intro b t h
        cases h
        exact ⟨by simp, fun decoded' whole' => by simp [hread]⟩
      · simp
    | ok =>
      cases hhash : env.hex2bin (map.decoder.world.hashStr.take goliothOtaComponentHashHexLen) with
      | none =>
        simp only [hhash]
        constructor
        · intro b t h
          cases h
          exact ⟨by simp, fun decoded' whole' => by simp [hread, hhash]⟩
        · simp
      | some hash =>
        simp only [hhash]
        constructor
        · simp
        · intro t h
          cases h
          exact ⟨_, rfl, fun decoded whole => by simp [hread, hhash]⟩

/-- A component that lies in the list is the next one that is read there. The list goes on right
behind it, if its map ends with a requested pair and is of definite length. -/
theorem ComponentLayout.Lies.read {c : ComponentLayout} {payloadEnd : Nat}
    (h : c.Lies env cfg payloadEnd) (hlib : env.lib.Lawful env.mem) (hread : c.Readable)
    (hends : c.EndsRequested) (hb : z.Bounded) (hat : z.At c.start payloadEnd)
    (hfree : z.backups.length < z.numBackups) :
    ComponentsRead env cfg z decoded whole ↔
      ∃ rest, decoded = c.component :: rest ∧ ComponentsRead env cfg (z.readTo c.stop) rest whole := by
  obtain ⟨n, d, stop, back, hstep, hd, hchain, -, hback⟩ :=
    h.step (s := ⟨⟨z, [], ()⟩, []⟩) hlib hread hat hfree
  obtain rfl := hback.mpr hends
  obtain rfl : stop = c.stop := hchain
  have hfuel : z.left < max n z.left + 1 := by omega
  obtain ⟨-, hnext⟩ := componentsStep_reads (s := ⟨⟨z, [], ()⟩, []⟩) cfg hlib hb hfuel
  obtain ⟨component, hcalls, hreads⟩ := hnext _ (hstep _ (by omega))
  obtain rfl : c.component = component := by simpa using hcalls
  rw [hreads, hd]

/-- Components at the front of the list are read in their order, whatever comes behind them. -/
theorem components_front_read (hlib : env.lib.Lawful env.mem) {payloadEnd stop : Nat}
    (front : List ComponentLayout) (hb : z.Bounded) (hend : z.payloadEnd = payloadEnd)
    (hcount : front.length ≤ z.elemCount) (hfree : z.backups.length < z.numBackups)
    (hchain : ComponentChain z.payload front stop)
    (hlies : ∀ c ∈ front, c.Lies env cfg payloadEnd ∧ c.Readable ∧ c.EndsRequested ∧
      c.indefinite = false ∧ c.stop ≤ payloadEnd)
    (h : ComponentsRead env cfg z decoded whole) :
    front.map ComponentLayout.component <+: decoded := by
  induction front generalizing z decoded with
  | nil => exact List.nil_prefix
  | cons c front ih =>
    obtain ⟨hc, hread, hends, hdefinite, hstop⟩ := hlies c List.mem_cons_self
    rw [List.length_cons] at hcount
    obtain ⟨rest, rfl, hrest⟩ := (hc.read hlib hread hends hb ⟨hchain.1.symm, hend, by omega⟩ hfree).mp h
    have hnext := hchain.2
    rw [ComponentLayout.after, hdefinite] at hnext
    refine List.cons_prefix_cons.mpr ⟨rfl, ih (z := z.readTo c.stop) ?_ hend ?_ hfree hnext
      (fun c' hc' => hlies c' (List.mem_cons_of_mem _ hc')) hrest⟩
    · exact hstop.trans hend.ge
    · simp only [ZcborState.readTo]
      omega

end

section
variable (cfg : OtaConfig) {components : List RegisteredComponent}

end
end Pouch
