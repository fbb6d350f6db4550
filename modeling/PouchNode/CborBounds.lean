import PouchNode.MapBounds
import PouchNode.Manifest
import PouchNode.Settings

/-! The bytes that the handlers of settings and manifests look at by themselves. Nothing checks
that there is such a byte: the code looks past the input exactly if that ends where it is about
to look. -/
namespace Pouch
open Loop

section
variable (lib : Zcbor) (mem : Memory)

/- The content of the settings map. The input is cut if it ends where a label or a break is due
   in a map of indefinite length, or behind a label. -/
inductive SettingsReads : ZcborState → Settings → Outcome Settings → Prop where
  | due {z : ZcborState} {w : Settings} (indefinite : z.indefinite = true)
      (exhausted : z.Exhausted) : SettingsReads z w none
  | ended {z : ZcborState} {w : Settings} (ended : z.Ended mem) : SettingsReads z w (some (z, w))
  | value {z z' : ZcborState} {w : Settings} {label : ZcborString} (more : ¬ z.Ended mem)
      (name : lib.tstrDecode z = some (label, z')) (exhausted : z'.Exhausted) :
      SettingsReads z w none
  | next {z z' z'' : ZcborState} {w w' : Settings} {label : ZcborString} {o : Outcome Settings}
      (more : ¬ z.Ended mem) (name : lib.tstrDecode z = some (label, z'))
      (value : settingDecode lib mem label z' w = some (z'', w')) (rest : SettingsReads z'' w' o) :
      SettingsReads z w o

def settingsReader : MapReader Settings 2 where
  keys := ![settingsKey, versionKey]
  value := ![fun z w o => lib.nilExpect z = none ∧
      Enclosed lib.mapStartDecode (SettingsReads lib mem) lib.mapEndDecode z w o,
    ReadsQuietly fun d => some (zcborMapInt64Decode lib
      (fun version settings => { settings with version }) d)]

end

section
variable {lib : Zcbor} {mem : Memory} {d : Decoder Settings} {z z' : ZcborState} {w : Settings}
  {o : Outcome Settings} {label : ZcborString}

theorem settingsReads_ended (h : z.Ended mem) : SettingsReads lib mem z w o ↔
    (o = none ∧ z.indefinite = true ∧ z.Exhausted) ∨ o = some (z, w) := by
  constructor
  · intro hreads
    cases hreads with
    | due indefinite exhausted => exact Or.inl ⟨rfl, indefinite, exhausted⟩
    | ended => exact Or.inr rfl
    | value more => exact absurd h more
    | next more => exact absurd h more
  · rintro (⟨rfl, hindefinite, hexhausted⟩ | rfl)
    · exact .due hindefinite hexhausted
    · exact .ended h

theorem settingsReads_no_label (h : ¬ z.Ended mem) (hname : lib.tstrDecode z = none) :
    SettingsReads lib mem z w o ↔ o = none ∧ z.indefinite = true ∧ z.Exhausted := by
  constructor
  · intro hreads
    cases hreads with
    | due indefinite exhausted => exact ⟨rfl, indefinite, exhausted⟩
    | ended hended => exact absurd hended h
    | value _ name => cases hname.symm.trans name
    | next _ name => cases hname.symm.trans name
  · rintro ⟨rfl, hindefinite, hexhausted⟩
    exact .due hindefinite hexhausted

theorem settingsReads_label (hlib : lib.Lawful mem) (h : ¬ z.Ended mem)
    (hname : lib.tstrDecode z = some (label, z')) :
    SettingsReads lib mem z w o ↔ (o = none ∧ z'.Exhausted) ∨
      ∃ z'' w', settingDecode lib mem label z' w = some (z'', w') ∧ SettingsReads lib mem z'' w' o := by
  constructor
  · intro hreads
    cases hreads with
    | due _ exhausted => exact absurd exhausted (hlib.tstr _ _ _ hname).not_exhausted
    | ended hended => exact absurd hended h
    | value _ name exhausted =>
      cases hname.symm.trans name
      exact Or.inl ⟨rfl, exhausted⟩
    | next _ name value rest =>
      cases hname.symm.trans name
      exact Or.inr ⟨_, _, value, rest⟩
  · rintro (⟨rfl, hexhausted⟩ | ⟨z'', w', hvalue, hrest⟩)
    · exact .value h hname hexhausted
    · exact .next h hname hvalue hrest

theorem settingValueDecode_reads (hlib : lib.Lawful mem) {data : SettingData}
    (h : settingValueDecode lib mem z = some (data, z')) : z.Reads z' := by
  simp only [settingValueDecode] at h
  split at h
  · obtain ⟨⟨str, zsd⟩, hdecode, heq⟩ := Option.map_eq_some_iff.mp h
    cases heq
    exact hlib.tstr _ _ _ hdecode
  · obtain ⟨⟨n, zsd⟩, hdecode, heq⟩ := Option.map_eq_some_iff.mp h
    cases heq
    exact hlib.int32 _ _ _ hdecode
  · obtain ⟨⟨n, zsd⟩, hdecode, heq⟩ := Option.map_eq_some_iff.mp h
    cases heq
    exact hlib.int32 _ _ _ hdecode
  · split at h
    · next bits zsd hdecode =>
      cases h
      exact hlib.float _ _ _ hdecode
    · obtain ⟨⟨b, zsd⟩, hdecode, heq⟩ := Option.map_eq_some_iff.mp h
      cases heq
      exact hlib.bool _ _ _ hdecode
  · cases h

theorem settingDecode_reads (hlib : lib.Lawful mem) {w' : Settings}
    (h : settingDecode lib mem label z w = some (z', w')) : z.Reads z' := by
  simp only [settingDecode] at h
  split at h
  · next data zsd hvalue =>
    cases h
    exact settingValueDecode_reads hlib hvalue
  · obtain ⟨zsd, hskip, heq⟩ := Option.map_eq_some_iff.mp h
    cases heq
    exact hlib.skip _ _ hskip

def SettingsRunsTo (lib : Zcbor) (mem : Memory) (d : Decoder Settings)
    (result : Option DecodeErrno × Decoder Settings) : Prop :=
  d.Follows result.2 (result.1 = none) (SettingsReads lib mem d.zsd d.world)

theorem settingsStep_runs (hlib : lib.Lawful mem) (hb : d.zsd.Bounded) :
    (∃ result, settingsStep lib mem d = some (.inr result) ∧ SettingsRunsTo lib mem d result) ∨
    ∃ t : Decoder Settings, settingsStep lib mem d = some (.inl t) ∧ t.zsd.Bounded ∧
      t.zsd.left < d.zsd.left ∧
      ∀ result, SettingsRunsTo lib mem t result → SettingsRunsTo lib mem d result := by
  have hlist := goes_listOrMapEnd mem hb
  obtain ⟨hzsd, hworld⟩ := zcborListOrMapEnd_zsd mem d
  by_cases hended : d.zsd.Ended mem
  · have hfst := (zcborListOrMapEnd_fst mem d).mpr hended
    refine Or.inl ⟨(none, (zcborListOrMapEnd mem d).2), by simp only [settingsStep, hfst, if_true], ?_⟩
    refine ⟨hlist.congr ?_, fun z w => ?_⟩
    · simp [settingsReads_ended hended]
    · rw [settingsReads_ended hended, hzsd, hworld]
      constructor
      · rintro (⟨h, -⟩ | h) <;> cases h
        exact ⟨rfl, rfl, rfl⟩
      · rintro ⟨-, rfl, rfl⟩
        exact Or.inr rfl
  · have hfst := zcborListOrMapEnd_more hended
    cases hname : lib.tstrDecode d.zsd with
    | none =>
      refine Or.inl ⟨(some .ebadmsg, (zcborListOrMapEnd mem d).2), ?_, ?_⟩
      · simp only [settingsStep, hfst, Bool.false_eq_true, if_false, hzsd, hname]
      · exact hlist.fails (by simp) fun o => settingsReads_no_label hended hname
    | some pair =>
      obtain ⟨label, z⟩ := pair
      have hreads := hlib.tstr _ _ _ hname
      -- the look at the value, behind the label
      have hlook : d.Goes (Decoder.look ⟨z, (zcborListOrMapEnd mem d).2.looked, d.world⟩)
          z.Exhausted := by
        have hlabel := hlist.trans (goes_reads d.world (by rw [hzsd]; exact hreads))
        refine (hlabel.congr (q := False) ?_).after (goes_look hlabel.bounded)
        have hnot := hreads.not_exhausted
        tauto
      cases hvalue : settingDecode lib mem label z d.world with
      | none =>
        refine Or.inl ⟨(some .ebadmsg, _), ?_, hlook.fails (by simp) fun o => ?_⟩
        · simp only [settingsStep, hfst, Bool.false_eq_true, if_false, hzsd, hname, hworld, hvalue,
            Decoder.look]
        · simp [settingsReads_label hlib hended hname, hvalue]
      | some next =>
        obtain ⟨z', w'⟩ := next
        have hnext := settingDecode_reads hlib hvalue
        refine Or.inr ⟨⟨z', (Decoder.look ⟨z, (zcborListOrMapEnd mem d).2.looked, d.world⟩).looked, w'⟩,
          ?_, hnext.bounded.trans hnext.payloadEnd.ge, hnext.left_lt.trans hreads.left_lt, ?_⟩
        · simp only [settingsStep, hfst, Bool.false_eq_true, if_false, hzsd, hname, hworld, hvalue,
            Decoder.look]
        · intro result hresult
          refine (hlook.before (goes_reads w' hnext)).follows hresult fun o => ?_
          simp [settingsReads_label hlib hended hname, hvalue]

/-- settings_decode returns, and it goes as the reading of its input goes. -/
theorem settingsDecode_follows (hlib : lib.Lawful mem) (d : Decoder Settings) (hb : d.zsd.Bounded)
    {fuel : Nat} (hleft : d.zsd.left < fuel) :
    ∃ ret d', settingsDecode lib mem fuel d = some (ret, d') ∧
      d.Follows d' (ret = .ok) ((settingsReader lib mem).value 0 d.zsd d.world) := by
  have hvalue : (settingsReader lib mem).value 0 d.zsd d.world = fun o => lib.nilExpect d.zsd = none ∧
      Enclosed lib.mapStartDecode (SettingsReads lib mem) lib.mapEndDecode d.zsd d.world o := rfl
  rw [hvalue]
  cases hnil : lib.nilExpect d.zsd with
  | some z =>
    refine ⟨.err .enoent, { d with zsd := z }, by simp only [settingsDecode, hnil], ?_⟩
    exact (goes_reads d.world (hlib.nil _ _ hnil)).fails (by simp) fun o => by simp
  | none =>
    simp only [true_and]
    cases hstart : lib.mapStartDecode d.zsd with
    | none =>
      refine ⟨.err .ebadmsg, d, by simp only [settingsDecode, hnil, hstart], ?_⟩
      refine (goes_refl d.world hb).fails (by simp) fun o => ?_
      simp [not_enclosed hstart]
    | some zsd =>
      obtain ⟨hopens, -⟩ := hlib.mapStart _ _ hstart
      have hgoes := goes_opens d.world hopens
      obtain ⟨⟨e, s⟩, hrun, hresult⟩ := run_of_measure (I := fun d => d.zsd.Bounded)
        (P := SettingsRunsTo lib mem) (fun d : Decoder Settings => d.zsd.left)
        (fun d hd => settingsStep_runs hlib hd) { d with zsd } hgoes.bounded fuel
        (hopens.left_lt.trans hleft)
      have hrefl := goes_refl s.world hresult.goes.bounded
      cases e with
      | some e =>
        refine ⟨.err e, s, by simp only [settingsDecode, hnil, hstart, hrun], ?_⟩
        exact hresult.enclosed hstart hgoes hrefl rfl (by simp)
      | none =>
        cases hend : lib.mapEndDecode s.zsd with
        | none =>
          refine ⟨.err .ebadmsg, s, by simp only [settingsDecode, hnil, hstart, hrun, hend], ?_⟩
          exact hresult.enclosed hstart hgoes hrefl rfl (by simp [hend])
        | some z =>
          obtain ⟨hforward, hbounded, hpayloadEnd⟩ := hlib.mapEnd _ _ hend
          refine ⟨.ok, { s with zsd := z }, by simp only [settingsDecode, hnil, hstart, hrun, hend], ?_⟩
          refine hresult.enclosed hstart hgoes (goes_zsd s.world hpayloadEnd hforward ?_) rfl
            (by simp [hend])
          exact (hbounded hresult.goes.bounded).trans hpayloadEnd.ge

theorem settingsReader_of (hlib : lib.Lawful mem) (fuel : Nat) :
    MapReader.Of (settingsEntries lib mem fuel) (settingsReader lib mem) fuel where
  keys i := by fin_cases i <;> rfl
  decode i d hb hleft := by
    fin_cases i
    · exact settingsDecode_follows hlib d hb hleft
    · exact (quiet_mapValueDecode hlib.int64 _).follows d hb

end

theorem quiet_componentEntryDecodeValue {env : ManifestEnv} (hlib : env.lib.Lawful env.mem)
    (valueLen : Nat) (store : Buf → ComponentDraft → ComponentDraft) :
    Quiet fun d => some (componentEntryDecodeValue env valueLen store d) := by
  intro z w
  cases hvalue : env.lib.tstrDecode z with
  | none =>
    refine ⟨.err .ebadmsg, z, w, Or.inl rfl, fun looked => ?_⟩
    simp only [componentEntryDecodeValue, hvalue]
  | some pair =>
    obtain ⟨tstr, z'⟩ := pair
    have hreads := hlib.tstr _ _ _ hvalue
    by_cases hlen : valueLen < tstr.len
    · refine ⟨.err .enomem, z', w, Or.inr hreads, fun looked => ?_⟩
      simp only [componentEntryDecodeValue, hvalue, hlen, if_true]
    · refine ⟨.ok, z', store (env.mem.bytesAt tstr.value tstr.len) w, Or.inr hreads, fun looked => ?_⟩
      simp only [componentEntryDecodeValue, hvalue, hlen, if_false]

def componentReader (env : ManifestEnv) (cfg : OtaConfig) : MapReader ComponentDraft 4 where
  keys i := ((componentEntries env cfg).get i).key
  value i := ReadsQuietly ((componentEntries env cfg).get i).decode

theorem componentReader_of {env : ManifestEnv} (cfg : OtaConfig) (hlib : env.lib.Lawful env.mem)
    (fuel : Nat) : MapReader.Of (componentEntries env cfg) (componentReader env cfg) fuel where
  keys _ := rfl
  decode i d hb _ := by
    refine Quiet.follows (?_ : Quiet ((componentEntries env cfg).get i).decode) d hb
    fin_cases i
    · exact quiet_componentEntryDecodeValue hlib _ _
    · exact quiet_componentEntryDecodeValue hlib _ _
    · exact quiet_mapValueDecode hlib.int32 _
    · exact quiet_componentEntryDecodeValue hlib _ _

section
variable (env : ManifestEnv) (cfg : OtaConfig)

def ComponentDecodes (z : ZcborState) : Outcome ComponentDraft → Prop :=
  MapDecodes env.lib env.mem (componentReader env cfg) (env.key z.payload) z
    (newDraft env cfg z.payload)

/- The input is cut where a component or a break is due in a list of indefinite length, or in a
   component. -/
inductive ComponentsCut : ZcborState → Prop where
  | due {z : ZcborState} (indefinite : z.indefinite = true) (exhausted : z.Exhausted) :
      ComponentsCut z
  | component {z : ZcborState} (more : ¬ z.Ended env.mem) (cut : ComponentDecodes env cfg z none) :
      ComponentsCut z
  | next {z z' : ZcborState} {draft : ComponentDraft} {hash : Vector UInt8 32}
      (more : ¬ z.Ended env.mem) (component : ComponentDecodes env cfg z (some (z', draft)))
      (hex2bin : env.hex2bin (draft.hashStr.take goliothOtaComponentHashHexLen) = some hash)
      (rest : ComponentsCut z') : ComponentsCut z

inductive ManifestCut : ZcborState → Prop where
  | due {z : ZcborState} (indefinite : z.indefinite = true) (exhausted : z.Exhausted) :
      ManifestCut z
  | components {z z' list : ZcborState} (more : ¬ z.Ended env.mem)
      (key : env.lib.uint32Decode z = some (manifestKeyComponents, z'))
      (start : env.lib.listStartDecode z' = some list) (cut : ComponentsCut env cfg list) :
      ManifestCut z
  | next {z z' z'' : ZcborState} {k : UInt32} (more : ¬ z.Ended env.mem)
      (key : env.lib.uint32Decode z = some (k, z')) (other : k ≠ manifestKeyComponents)
      (value : env.lib.anySkip z' = some z'') (rest : ManifestCut z'') : ManifestCut z

end

section
variable {env : ManifestEnv} {cfg : OtaConfig} {z : ZcborState} {s : ManifestLoop} {fuel : Nat}

theorem componentsCut_ended (cfg : OtaConfig) (h : z.Ended env.mem) :
    ComponentsCut env cfg z ↔ z.indefinite = true ∧ z.Exhausted := by
  constructor
  · intro hcut
    cases hcut with
    | due indefinite exhausted => exact ⟨indefinite, exhausted⟩
    | component more => exact absurd h more
    | next more => exact absurd h more
  · rintro ⟨hindefinite, hexhausted⟩
    exact .due hindefinite hexhausted

theorem componentsCut_more (cfg : OtaConfig) (h : ¬ z.Ended env.mem) :
    ComponentsCut env cfg z ↔ (z.indefinite = true ∧ z.Exhausted) ∨ ComponentDecodes env cfg z none ∨
      ∃ z' draft hash, ComponentDecodes env cfg z (some (z', draft)) ∧
        env.hex2bin (draft.hashStr.take goliothOtaComponentHashHexLen) = some hash ∧
        ComponentsCut env cfg z' := by
  constructor
  · intro hcut
    cases hcut with
    | due indefinite exhausted => exact Or.inl ⟨indefinite, exhausted⟩
    | component _ cut => exact Or.inr (Or.inl cut)
    | next _ component hex2bin rest => exact Or.inr (Or.inr ⟨_, _, _, component, hex2bin, rest⟩)
  · rintro (⟨hindefinite, hexhausted⟩ | hcut | ⟨z', draft, hash, hcomponent, hhash, hrest⟩)
    · exact .due hindefinite hexhausted
    · exact .component h hcut
    · exact .next h hcomponent hhash hrest

theorem component_follows (cfg : OtaConfig) (hlib : env.lib.Lawful env.mem) (z : ZcborState)
    (looked : List Nat) (hb : z.Bounded) (hleft : z.left < fuel) :
    ∃ ret map, zcborMapDecode env.lib env.mem (componentEntries env cfg) fuel (env.key z.payload)
        ⟨z, looked, newDraft env cfg z.payload⟩ = some (ret, map) ∧
      Decoder.Follows ⟨z, looked, newDraft env cfg z.payload⟩ map.decoder (ret = .ok)
        (ComponentDecodes env cfg z) ∧
      (ret = .ok → map.decoder.zsd.left < z.left) :=
  zcborMapDecode_follows hlib (componentReader_of cfg hlib fuel) (Nat.succ_pos 3) (env.key z.payload)
    ⟨z, looked, newDraft env cfg z.payload⟩ hb hleft

structure ManifestLoop.ComponentsTo (env : ManifestEnv) (cfg : OtaConfig) (s : ManifestLoop)
    (result : Bool × ManifestLoop) : Prop where
  goes : s.decoder.Goes result.2.decoder (ComponentsCut env cfg s.decoder.zsd)
  ended : result.1 = true → result.2.decoder.zsd.Ended env.mem
  again : result.1 = true → result.2.decoder.zsd.indefinite = true ∧
    result.2.decoder.zsd.Exhausted → ComponentsCut env cfg s.decoder.zsd

theorem componentsStep_goes (cfg : OtaConfig) (hlib : env.lib.Lawful env.mem)
    (hb : s.decoder.zsd.Bounded) (hfuel : s.decoder.zsd.left < fuel) :
    (∃ result, componentsStep env cfg fuel s = some (.inr result) ∧ s.ComponentsTo env cfg result) ∨
    ∃ t, componentsStep env cfg fuel s = some (.inl t) ∧
      (t.decoder.zsd.Bounded ∧ t.decoder.zsd.left < fuel) ∧
      t.decoder.zsd.left < s.decoder.zsd.left ∧
      ∀ result, t.ComponentsTo env cfg result → s.ComponentsTo env cfg result := by
  have hlist := goes_listOrMapEnd env.mem hb
  obtain ⟨hzsd, -⟩ := zcborListOrMapEnd_zsd env.mem s.decoder
  by_cases hended : s.decoder.zsd.Ended env.mem
  · have hfst := (zcborListOrMapEnd_fst env.mem s.decoder).mpr hended
    have hcut := componentsCut_ended cfg hended
    refine Or.inl ⟨(true, { s with decoder := (zcborListOrMapEnd env.mem s.decoder).2 }), ?_,
      hlist.congr hcut.symm, fun _ => by rw [hzsd]; exact hended, fun _ => by rw [hzsd]; exact hcut.mpr⟩
    simp only [componentsStep, hfst, if_true]
  · have hfst := zcborListOrMapEnd_more hended
    have hcut := componentsCut_more cfg hended
    have hdraft : (zcborListOrMapEnd env.mem s.decoder).2.Goes (⟨s.decoder.zsd,
        (zcborListOrMapEnd env.mem s.decoder).2.looked, newDraft env cfg s.decoder.zsd.payload⟩ :
          Decoder ComponentDraft) False :=
      goes_zsd _ (by rw [hzsd]) (by rw [hzsd]) hb
    obtain ⟨ret, map, hdecode, hfollows, hlt⟩ := component_follows cfg hlib s.decoder.zsd
      (zcborListOrMapEnd env.mem s.decoder).2.looked hb hfuel
    have hgoes : s.decoder.Goes (map.decoder.withWorld ())
        ((s.decoder.zsd.indefinite = true ∧ s.decoder.zsd.Exhausted) ∨
          ComponentDecodes env cfg s.decoder.zsd none) :=
      (hlist.trans (hdraft.after hfollows.goes)).before (goes_refl () hfollows.goes.bounded)
    have hreads := hfollows.reads
    cases ret with
    | err e =>
      refine Or.inl ⟨(false, { s with decoder := map.decoder.withWorld () }), ?_,
        hgoes.congr ?_, by simp, by simp⟩
      · simp only [componentsStep, hfst, Bool.false_eq_true, if_false, Decoder.withWorld, hzsd,
          hdecode]
      · simp [hcut, hreads]
    | ok =>
      cases hhash : env.hex2bin (map.decoder.world.hashStr.take goliothOtaComponentHashHexLen) with
      | none =>
        refine Or.inl ⟨(false, { s with decoder := map.decoder.withWorld () }), ?_,
          hgoes.congr ?_, by simp, by simp⟩
        · simp only [componentsStep, hfst, Bool.false_eq_true, if_false, Decoder.withWorld, hzsd,
          hdecode, hhash]
        · simp [hcut, hreads, hhash]
      | some hash =>
        have hless := hlt rfl
        have hnext : ComponentsCut env cfg s.decoder.zsd ↔
            ((s.decoder.zsd.indefinite = true ∧ s.decoder.zsd.Exhausted) ∨
              ComponentDecodes env cfg s.decoder.zsd none) ∨ ComponentsCut env cfg map.decoder.zsd := by
          simp [hcut, hreads, hhash, or_assoc]
        refine Or.inr ⟨⟨map.decoder.withWorld (), s.calls++[.receiveOne
          (map.decoder.world.component hash)]⟩, ?_, ⟨hgoes.bounded, hless.trans hfuel⟩, hless, ?_⟩
        · simp only [componentsStep, hfst, Bool.false_eq_true, if_false, Decoder.withWorld, hzsd,
          hdecode, hhash]
        · intro result hresult
          refine ⟨(hgoes.trans hresult.goes).congr hnext.symm, hresult.ended, fun htrue hagain => ?_⟩
          exact hnext.mpr (Or.inr (hresult.again htrue hagain))

theorem manifestCut_ended (cfg : OtaConfig) (h : z.Ended env.mem) :
    ManifestCut env cfg z ↔ z.indefinite = true ∧ z.Exhausted := by
  constructor
  · intro hcut
    cases hcut with
    | due indefinite exhausted => exact ⟨indefinite, exhausted⟩
    | components more => exact absurd h more
    | next more => exact absurd h more
  · rintro ⟨hindefinite, hexhausted⟩
    exact .due hindefinite hexhausted

theorem manifestCut_more (cfg : OtaConfig) (h : ¬ z.Ended env.mem) :
    ManifestCut env cfg z ↔ (z.indefinite = true ∧ z.Exhausted) ∨
      (∃ z' list, env.lib.uint32Decode z = some (manifestKeyComponents, z') ∧
        env.lib.listStartDecode z' = some list ∧ ComponentsCut env cfg list) ∨
      ∃ k z' z'', env.lib.uint32Decode z = some (k, z') ∧ k ≠ manifestKeyComponents ∧
        env.lib.anySkip z' = some z'' ∧ ManifestCut env cfg z'' := by
  constructor
  · intro hcut
    cases hcut with
    | due indefinite exhausted => exact Or.inl ⟨indefinite, exhausted⟩
    | components _ key start cut => exact Or.inr (Or.inl ⟨_, _, key, start, cut⟩)
    | next _ key other value rest => exact Or.inr (Or.inr ⟨_, _, _, key, other, value, rest⟩)
  · rintro (⟨hindefinite, hexhausted⟩ | ⟨z', list, hkey, hstart, hcut⟩ |
      ⟨k, z', z'', hkey, hother, hvalue, hrest⟩)
    · exact .due hindefinite hexhausted
    · exact .components h hkey hstart hcut
    · exact .next h hkey hother hvalue hrest

theorem components_goes (cfg : OtaConfig) (hlib : env.lib.Lawful env.mem) (s : ManifestLoop)
    (hb : s.decoder.zsd.Bounded) (hfuel : s.decoder.zsd.left < fuel) :
    ∃ result, run (componentsStep env cfg fuel) fuel s = some result ∧
      s.ComponentsTo env cfg result :=
  run_of_measure (I := fun s => s.decoder.zsd.Bounded ∧ s.decoder.zsd.left < fuel)
    (P := fun s result => s.ComponentsTo env cfg result) (fun s => s.decoder.zsd.left)
    (fun _ hs => componentsStep_goes cfg hlib hs.1 hs.2) s ⟨hb, hfuel⟩ fuel hfuel

theorem manifestStep_list (cfg : OtaConfig) (hlib : env.lib.Lawful env.mem) {z list : ZcborState}
    {p : Prop} (hmore : (zcborListOrMapEnd env.mem s.decoder).1 = false)
    (hkey : env.lib.uint32Decode s.decoder.zsd = some (manifestKeyComponents, z))
    (hstart : env.lib.listStartDecode z = some list)
    (hgoes : s.decoder.Goes (⟨list, (zcborListOrMapEnd env.mem s.decoder).2.looked, ()⟩ :
      Decoder Unit) p)
    (hlt : list.left < s.decoder.zsd.left) (hfuel : s.decoder.zsd.left < fuel)
    (hcut : ManifestCut env cfg s.decoder.zsd ↔ p ∨ ComponentsCut env cfg list) :
    (∃ u : ManifestLoop, manifestStep env cfg fuel s = some (.inr u) ∧
      s.decoder.Goes u.decoder (ManifestCut env cfg s.decoder.zsd)) ∨
    ∃ t, manifestStep env cfg fuel s = some (.inl t) ∧
      (t.decoder.zsd.Bounded ∧ t.decoder.zsd.left < fuel) ∧
      t.decoder.zsd.left < s.decoder.zsd.left ∧
      ∀ u : ManifestLoop, t.decoder.Goes u.decoder (ManifestCut env cfg t.decoder.zsd) →
        s.decoder.Goes u.decoder (ManifestCut env cfg s.decoder.zsd) := by
  obtain ⟨hzsd, -⟩ := zcborListOrMapEnd_zsd env.mem s.decoder
  obtain ⟨⟨b, t⟩, hrun, hto⟩ := components_goes cfg hlib
    ⟨⟨list, (zcborListOrMapEnd env.mem s.decoder).2.looked, ()⟩, s.calls⟩ hgoes.bounded
    (hlt.trans hfuel)
  have hall := (hgoes.trans hto.goes).congr hcut.symm
  cases b with
  | false =>
    refine Or.inl ⟨t, ?_, hall⟩
    simp only [manifestStep, hmore, Bool.false_eq_true, if_false, hzsd, hkey, if_true, hstart, hrun]
  | true =>
    -- the decoder stays at the end of the list, and what is looked at there has been before
    have hended := hto.ended rfl
    have hagain : t.decoder.zsd.indefinite = true ∧ t.decoder.zsd.Exhausted →
        ManifestCut env cfg s.decoder.zsd := fun h => hcut.mpr (Or.inr (hto.again rfl h))
    have hfst := (zcborListOrMapEnd_fst env.mem t.decoder).mpr hended
    have hlook := hall.trans (goes_listOrMapEnd env.mem hto.goes.bounded)
    obtain ⟨hzsd', -⟩ := zcborListOrMapEnd_zsd env.mem t.decoder
    have hless : t.decoder.zsd.left < s.decoder.zsd.left :=
      Nat.lt_of_le_of_lt hto.goes.left_le hlt
    refine Or.inr ⟨⟨(zcborListOrMapEnd env.mem t.decoder).2, t.calls++[.complete]⟩, ?_,
      ⟨hlook.bounded, ?_⟩, ?_, fun u hu => (hlook.trans hu).congr ?_⟩
    · simp only [manifestStep, hmore, Bool.false_eq_true, if_false, hzsd, hkey, if_true, hstart, hrun,
        hfst]
    · rw [hzsd']
      exact hless.trans hfuel
    · rw [hzsd']
      exact hless
    · rw [hzsd', manifestCut_ended cfg hended]
      tauto

theorem manifestStep_goes (cfg : OtaConfig) (hlib : env.lib.Lawful env.mem)
    (hb : s.decoder.zsd.Bounded) (hfuel : s.decoder.zsd.left < fuel) :
    (∃ u : ManifestLoop, manifestStep env cfg fuel s = some (.inr u) ∧
      s.decoder.Goes u.decoder (ManifestCut env cfg s.decoder.zsd)) ∨
    ∃ t, manifestStep env cfg fuel s = some (.inl t) ∧
      (t.decoder.zsd.Bounded ∧ t.decoder.zsd.left < fuel) ∧
      t.decoder.zsd.left < s.decoder.zsd.left ∧
      ∀ u : ManifestLoop, t.decoder.Goes u.decoder (ManifestCut env cfg t.decoder.zsd) →
        s.decoder.Goes u.decoder (ManifestCut env cfg s.decoder.zsd) := by
  have hlist := goes_listOrMapEnd env.mem hb
  obtain ⟨hzsd, -⟩ := zcborListOrMapEnd_zsd env.mem s.decoder
  by_cases hended : s.decoder.zsd.Ended env.mem
  · have hfst := (zcborListOrMapEnd_fst env.mem s.decoder).mpr hended
    refine Or.inl ⟨{ s with decoder := (zcborListOrMapEnd env.mem s.decoder).2 }, ?_,
      hlist.congr (manifestCut_ended cfg hended).symm⟩
    simp only [manifestStep, hfst, if_true]
  · have hfst := zcborListOrMapEnd_more hended
    have hcut := manifestCut_more cfg hended
    cases hkey : env.lib.uint32Decode s.decoder.zsd with
    | none =>
      refine Or.inl ⟨{ s with decoder := (zcborListOrMapEnd env.mem s.decoder).2 }, ?_, hlist.congr ?_⟩
      · simp only [manifestStep, hfst, Bool.false_eq_true, if_false, hzsd, hkey]
      · simp [hcut, hkey]
    | some pair =>
      obtain ⟨k, z⟩ := pair
      obtain ⟨hreads, -⟩ := hlib.uint32 _ _ _ hkey
      have hread := hlist.before (goes_reads () (by rw [hzsd]; exact hreads))
      by_cases hk : k = manifestKeyComponents
      · subst hk
        cases hstart : env.lib.listStartDecode z with
        | none =>
          refine Or.inl ⟨{ s with decoder := ⟨z, _, ()⟩ }, ?_, hread.congr ?_⟩
          · simp only [manifestStep, hfst, Bool.false_eq_true, if_false, hzsd, hkey, if_true, hstart]
          · simp [hcut, hkey, hstart]
        | some list =>
          have hopens := hlib.listStart _ _ hstart
          have hlt := hopens.left_lt.trans hreads.left_lt
          refine manifestStep_list cfg hlib hfst hkey hstart (hread.before (goes_opens () hopens)) hlt
            hfuel ?_
          simp [hcut, hkey, hstart]
      · cases hskip : env.lib.anySkip z with
        | none =>
          refine Or.inl ⟨{ s with decoder := ⟨z, _, ()⟩ }, ?_, hread.congr ?_⟩
          · simp only [manifestStep, hfst, Bool.false_eq_true, if_false, hzsd, hkey, hk, hskip]
          · simp [hcut, hkey, hk, hskip]
        | some z' =>
          have hskips := hlib.skip _ _ hskip
          have hlt := hskips.left_lt.trans hreads.left_lt
          have hskipped := hread.before (goes_reads () hskips)
          refine Or.inr ⟨⟨⟨z', (zcborListOrMapEnd env.mem s.decoder).2.looked, ()⟩, s.calls⟩, ?_,
            ⟨hskipped.bounded, hlt.trans hfuel⟩, hlt, fun u hu => (hskipped.trans hu).congr ?_⟩
          · simp only [manifestStep, hfst, Bool.false_eq_true, if_false, hzsd, hkey, hk, hskip]
          · simp [hcut, hkey, hk, hskip]

end

section
variable (env : ManifestEnv) (cfg : OtaConfig) (address len : Nat)

def SettingsInputCut (key : ZcborMapKey) (settings : Settings) : Prop :=
  MapDecodes env.lib env.mem (settingsReader env.lib env.mem) key (zcborStateD 2 address len) settings
    none

def ManifestInputCut : Prop :=
  ∃ zsd, env.lib.mapStartDecode (zcborStateD 3 address len) = some zsd ∧ ManifestCut env cfg zsd

end

theorem zcborStateD_bounded (numBackups address len : Nat) :
    (zcborStateD numBackups address len).Bounded := Nat.le_add_right _ _

theorem zcborStateD_left (numBackups address len : Nat) :
    (zcborStateD numBackups address len).left = len := Nat.add_sub_cancel_left address len

theorem Decoder.Goes.looked_iff {ω ψ : Type*} {numBackups address len : Nat} {world : ω}
    {d : Decoder ψ} {p : Prop}
    (h : (Decoder.mk (zcborStateD numBackups address len) [] world).Goes d p) :
    (∀ a ∈ d.looked, a < address + len) ↔ ¬ p := by
  have hwithin := h.within
  simp only [Decoder.Within, h.payloadEnd, zcborStateD, List.not_mem_nil, false_implies, implies_true,
    true_and] at hwithin
  exact hwithin

/-- Both handlers return, whatever the input, and everything that the code looks at by itself
lies within the input exactly if the input is not cut. -/
theorem handlers_look_within_iff (env : ManifestEnv) (cfg : OtaConfig) (hlib : env.lib.Lawful env.mem)
    (address len fuel : Nat) (hfuel : len < fuel) (key : ZcborMapKey) (settings : Settings) :
    (∃ ret s, settingsDownlink env.lib env.mem fuel key address len settings = some (ret, s) ∧
      ((∀ a ∈ s.decoder.looked, a < address + len) ↔
        ¬ SettingsInputCut env address len key settings)) ∧
    ∃ t, otaManifestDecode env cfg fuel address len = some t ∧
      ((∀ a ∈ t.decoder.looked, a < address + len) ↔ ¬ ManifestInputCut env cfg address len) := by
  constructor
  · obtain ⟨ret, s, hdecode, hfollows, -⟩ := zcborMapDecode_follows hlib
      (settingsReader_of hlib fuel) (Nat.succ_pos 1) key ⟨zcborStateD 2 address len, [], settings⟩
      (zcborStateD_bounded 2 address len) (by rw [zcborStateD_left]; exact hfuel)
    exact ⟨ret, s, hdecode, hfollows.goes.looked_iff⟩
  · have hb := zcborStateD_bounded 3 address len
    cases hstart : env.lib.mapStartDecode (zcborStateD 3 address len) with
    | none =>
      refine ⟨⟨⟨zcborStateD 3 address len, [], ()⟩, []⟩, by simp only [otaManifestDecode, hstart], ?_⟩
      simp [ManifestInputCut, hstart]
    | some zsd =>
      obtain ⟨hopens, -⟩ := hlib.mapStart _ _ hstart
      have hgoes := goes_opens (d := ⟨zcborStateD 3 address len, [], ()⟩) () hopens
      have hleft : zsd.left < fuel := by
        have hlt := hopens.left_lt
        rw [zcborStateD_left] at hlt
        omega
      obtain ⟨t, hrun, ht⟩ := run_of_measure
        (I := fun s => s.decoder.zsd.Bounded ∧ s.decoder.zsd.left < fuel)
        (P := fun s u : ManifestLoop => s.decoder.Goes u.decoder (ManifestCut env cfg s.decoder.zsd))
        (fun s => s.decoder.zsd.left) (fun _ hs => manifestStep_goes cfg hlib hs.1 hs.2)
        ⟨⟨zsd, [], ()⟩, []⟩ ⟨hgoes.bounded, hleft⟩ fuel hleft
      refine ⟨t, by simp only [otaManifestDecode, hstart, hrun], ?_⟩
      rw [(hgoes.after ht).looked_iff]
      simp [ManifestInputCut, hstart]

def settingsLabel : Buf := [0x68, 0x73, 0x65, 0x74, 0x74, 0x69, 0x6E, 0x67, 0x73, 0xA1, 0x61, 0x61]
def settingsBytes : Buf :=
  0xA2 :: settingsLabel++[0x01, 0x67, 0x76, 0x65, 0x72, 0x73, 0x69, 0x6F, 0x6E, 0x05]

def settingsLooked (bytes : Buf) : Option (List Nat) :=
  (settingsDownlink (manifestEnv bytes).lib (manifestEnv bytes).mem (bytes.length + 1) ⟨.u32, 0, 0⟩
    ramBase bytes.length Settings.boot).map fun result => result.2.decoder.looked

def manifestLooked (bytes : Buf) : Option (List Nat) :=
  (otaManifestDecode (manifestEnv bytes) otaDefaults (bytes.length + 1) ramBase bytes.length).map
    fun t => t.decoder.looked

theorem settingsBytes_not_cut :
    ¬ SettingsInputCut (manifestEnv settingsBytes) ramBase settingsBytes.length ⟨.u32, 0, 0⟩
        Settings.boot ∧
    ¬ ManifestInputCut (manifestEnv brokenManifest) otaDefaults ramBase brokenManifest.length := by
  constructor
  · obtain ⟨⟨ret, s, hdecode, hwithin⟩, -⟩ := handlers_look_within_iff (manifestEnv settingsBytes)
      otaDefaults (shortZcbor_lawful _) ramBase settingsBytes.length (settingsBytes.length + 1)
      (Nat.lt_succ_self _) ⟨.u32, 0, 0⟩ Settings.boot
    have hlooked : settingsLooked settingsBytes =
        some [ramBase + 1, ramBase + 13, ramBase + 14] := by
      decide
    simp only [settingsLooked, hdecode, Option.map_some, Option.some.injEq] at hlooked
    rw [← hwithin, hlooked]
    decide
  · obtain ⟨-, t, hdecode, hwithin⟩ := handlers_look_within_iff (manifestEnv brokenManifest)
      otaDefaults (shortZcbor_lawful _) ramBase brokenManifest.length (brokenManifest.length + 1)
      (Nat.lt_succ_self _) ⟨.u32, 0, 0⟩ Settings.boot
    have hlooked : manifestLooked brokenManifest =
        some [ramBase + 4, ramBase + 7, ramBase + 10, ramBase + 77] := by
      decide
    simp only [manifestLooked, hdecode, Option.map_some, Option.some.injEq] at hlooked
    rw [← hwithin, hlooked]
    decide

/-- At the end of the input: in zcbor_map_key_decode, in settings_decode, and in
zcbor_list_or_map_end. -/
theorem handlers_look_past_input :
    settingsLooked [0xA1] = some [ramBase + 1] ∧
    settingsLooked (0xA1 :: settingsLabel) = some [ramBase + 1, ramBase + 13] ∧
    (0xA1 :: settingsLabel).length = 13 ∧
    manifestLooked [0xBF] = some [ramBase + 1] := by
  decide

end Pouch
