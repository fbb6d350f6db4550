import PouchNode.CborBounds
import PouchNode.MapComplete
import PouchNode.Lib.Machine

/-! The version of the settings (settings_version in golioth_sdk/settings.c). It is decoded
straight into the variable, wherever it stands in a document: with the settings behind it, it
stays even if they cannot be decoded, or if there are none. -/
namespace Pouch
open Loop Machine

def settingsEntry : Fin 2 := ⟨0, by decide⟩
def versionEntry : Fin 2 := ⟨1, by decide⟩

inductive DocumentValue where
  | settings
  | version (v : Int)
  | other
  deriving DecidableEq

/- A pair of a settings document: the key as it lies, and its value with the address of it. An
   integer key may be taken for one of the texts, so the value says nothing about the key. -/
structure DocumentPair where
  key : PairKey
  address : Nat
  value : DocumentValue
  deriving DecidableEq

structure SettingsDocument where
  mem : Memory
  key : ZcborMapKey
  address : Nat
  len : Nat

section
variable (lib : Zcbor) (mem : Memory)

def settingsPairRead (z : ZcborState) : Option (ZcborState ⊕ Option ZcborState) :=
  if (zcborListOrMapEnd mem (⟨z, [], ()⟩ : Decoder Unit)).1 then some (.inr (some z))
  else
    match lib.tstrDecode z with
    | none => some (.inr none)
    | some (_, z) =>
      match settingValueDecode lib mem z with
      | some (_, z) => some (.inl z)
      | none =>
        match lib.anySkip z with
        | none => some (.inr none)
        | some z => some (.inl z)

def settingsMapRead (fuel : Nat) (z : ZcborState) : Option ZcborState :=
  match lib.nilExpect z with
  | some _ => none
  | none =>
    match lib.mapStartDecode z with
    | none => none
    | some zsd =>
      match run (settingsPairRead lib mem) fuel zsd with
      | some (some z) => lib.mapEndDecode z
      | _ => none

def documentEntry (key : ZcborMapKey) : Option (Fin 2) :=
  Fin.find? fun i => entryMatches mem ((![settingsKey, versionKey] : Fin 2 → EntryKey) i) key

def documentValue (fuel : Nat) (entry : Option (Fin 2)) (z : ZcborState) :
    Option (DocumentValue × ZcborState) :=
  match entry with
  | none => (lib.anySkip z).map (.other, ·)
  | some i =>
    if i = settingsEntry then (settingsMapRead lib mem fuel z).map (.settings, ·)
    else (lib.int64Decode z).map fun (v, z) => (.version v, z)

def documentPair (fuel : Nat) (key : ZcborMapKey) (z : ZcborState) :
    Option (ZcborMapKey × DocumentPair × ZcborState) :=
  if (zcborListOrMapEnd mem (⟨z, [], ()⟩ : Decoder Unit)).1 then none
  else
    match mapKeyRead lib mem z with
    | none => none
    | some (k, z) => (documentValue lib mem fuel (documentEntry mem (k.put key)) z).map
        fun (value, z') => (k.put key, ⟨k, z.payload, value⟩, z')

def documentPairs (fuel : Nat) : Nat → ZcborMapKey → ZcborState → List DocumentPair
  | 0, _, _ => []
  | rounds + 1, key, z =>
    match documentPair lib mem fuel key z with
    | none => []
    | some (key, p, z) => p :: documentPairs fuel rounds key z

end

def SettingsDocument.pairs (lib : Memory → Zcbor) (doc : SettingsDocument) : List DocumentPair :=
  match (lib doc.mem).mapStartDecode (zcborStateD 2 doc.address doc.len) with
  | none => []
  | some zsd => documentPairs (lib doc.mem) doc.mem (doc.len + 1) (doc.len + 1) doc.key zsd

/- One call of settings_downlink: what it leaves, and the values for which a callback has
   returned 0, settings_decode being the first one. As many rounds as there are bytes are
   enough (settingsDownlink_returns). -/
def settingsReceive (lib : Memory → Zcbor) (settings : Settings) (doc : SettingsDocument) :
    Settings × List (Nat × Nat) :=
  match zcborMapDecode (lib doc.mem) doc.mem
      (recorded (settingsEntries (lib doc.mem) doc.mem (doc.len + 1))) (doc.len + 1) doc.key
      ⟨zcborStateD 2 doc.address doc.len, [], settings, []⟩ with
  | none => (settings, [])
  | some (_, s) => s.decoder.world

abbrev settingsFinal (lib : Memory → Zcbor) : Settings → List SettingsDocument → Settings :=
  final (settingsReceive lib)

def HasVersion (mem : Memory) (v : Int) (ps : List DocumentPair) : Prop :=
  ∃ p ∈ ps, p.key.For mem versionKey ∧ p.value = .version v

instance (mem : Memory) (v : Int) (ps : List DocumentPair) : Decidable (HasVersion mem v ps) :=
  inferInstanceAs (Decidable (∃ p ∈ ps, p.key.For mem versionKey ∧ p.value = .version v))

/- The version stays, or the document has it under the key "version", and settings_decode has
   returned 0 for what it has under the key "settings". -/
def VersionApplied (lib : Memory → Zcbor) (settings : Settings) (doc : SettingsDocument) : Prop :=
  (settingsReceive lib settings doc).1.version = settings.version ∨
    (HasVersion doc.mem (settingsReceive lib settings doc).1.version (doc.pairs lib) ∧
      ∃ p ∈ doc.pairs lib, p.key.For doc.mem settingsKey ∧
        (settingsEntry.val, p.address) ∈ (settingsReceive lib settings doc).2)

def DocumentPair.taken (ps : List DocumentPair) : List DocumentPair :=
  ps.filter (·.value ≠ .other)

/- Of the first two pairs that are taken for settings or a version, no version is news; or only
   one of them is a version, the document has it under its key, and the other one is for the
   key of the settings. -/
def VersionGuarded (mem : Memory) (version : Int) (ps : List DocumentPair) : Prop :=
  match DocumentPair.taken ps with
  | [⟨_, _, .version v⟩] => v = version
  | ⟨_, _, .version _⟩ :: ⟨_, _, .version w⟩ :: _ => w = version
  | ⟨k, _, .settings⟩ :: ⟨_, _, .version v⟩ :: _
  | ⟨_, _, .version v⟩ :: ⟨k, _, .settings⟩ :: _ =>
    v = version ∨ (HasVersion mem v ps ∧ k.For mem settingsKey)
  | _ => True

section
variable {lib : Zcbor} {mem : Memory}

theorem listOrMapEnd_fst_congr {ω ψ : Type*} (mem : Memory) (d : Decoder ω) (d' : Decoder ψ)
    (h : d.zsd = d'.zsd) : (zcborListOrMapEnd mem d).1 = (zcborListOrMapEnd mem d').1 := by
  rw [Bool.eq_iff_iff, zcborListOrMapEnd_fst, zcborListOrMapEnd_fst, h]

theorem settingsPairRead_step (d : Decoder Settings) :
    settingsPairRead lib mem d.zsd = (settingsStep lib mem d).map (Sum.map Decoder.zsd
      fun r => if r.1 = none then some r.2.zsd else none) := by
  obtain ⟨hzsd, -⟩ := zcborListOrMapEnd_zsd mem d
  have hended := listOrMapEnd_fst_congr mem (⟨d.zsd, [], ()⟩ : Decoder Unit) d rfl
  cases hmore : (zcborListOrMapEnd mem d).1 with
  | true => simp [settingsPairRead, settingsStep, hended, hmore, hzsd]
  | false =>
    simp only [settingsPairRead, settingsStep, hended, hmore, hzsd, Bool.false_eq_true, if_false]
    cases lib.tstrDecode d.zsd with
    | none => simp
    | some pair =>
      obtain ⟨label, z⟩ := pair
      simp only [settingDecode, Decoder.look]
      cases settingValueDecode lib mem z with
      | some value => simp
      | none => cases lib.anySkip z <;> simp

theorem settingDecode_version {label : ZcborString} {z z' : ZcborState} {w w' : Settings}
    (h : settingDecode lib mem label z w = some (z', w')) : w'.version = w.version := by
  simp only [settingDecode] at h
  split at h
  · cases h
    rfl
  · obtain ⟨zsd, -, heq⟩ := Option.map_eq_some_iff.mp h
    cases heq
    rfl

/-- No round of settings_decode touches the version. -/
theorem settingsStep_version {d : Decoder Settings} :
    (∀ t, settingsStep lib mem d = some (.inl t) → t.world.version = d.world.version) ∧
    ∀ r, settingsStep lib mem d = some (.inr r) → r.2.world.version = d.world.version := by
  obtain ⟨-, hworld⟩ := zcborListOrMapEnd_zsd mem d
  cases hmore : (zcborListOrMapEnd mem d).1 with
  | true => simp [settingsStep, hmore, hworld]
  | false =>
    simp only [settingsStep, hmore, Bool.false_eq_true, if_false]
    cases lib.tstrDecode (zcborListOrMapEnd mem d).2.zsd with
    | none => simp [hworld]
    | some pair =>
      simp only [Decoder.look, hworld]
      cases hvalue : settingDecode lib mem pair.1 pair.2 d.world with
      | none => simp
      | some next => simp [settingDecode_version hvalue]

theorem settingsRun_version {fuel : Nat} {d : Decoder Settings}
    {r : Option DecodeErrno × Decoder Settings} (h : run (settingsStep lib mem) fuel d = some r) :
    r.2.world.version = d.world.version := by
  obtain ⟨t, hreaches, hend⟩ := exists_of_run h
  have hkept : t.world.version = d.world.version :=
    hreaches.invariant (P := fun u => u.world.version = d.world.version)
      (fun u v hu hstep => (settingsStep_version.1 v hstep).trans hu) rfl
  exact (settingsStep_version.2 r hend).trans hkept

/-- settings_decode returns 0 exactly if the settings map can be read to its end. -/
theorem settingsDecode_read {fuel : Nat} {d d' : Decoder Settings} {ret : DecodeRet}
    (h : settingsDecode lib mem fuel d = some (ret, d')) :
    settingsMapRead lib mem fuel d.zsd = (if ret = .ok then some d'.zsd else none) ∧
      d'.world.version = d.world.version := by
  unfold settingsDecode at h
  unfold settingsMapRead
  cases hnil : lib.nilExpect d.zsd with
  | some z =>
    simp only [hnil, Option.some.injEq, Prod.mk.injEq] at h
    obtain ⟨rfl, rfl⟩ := h
    simp
  | none =>
    cases hstart : lib.mapStartDecode d.zsd with
    | none =>
      simp only [hnil, hstart, Option.some.injEq, Prod.mk.injEq] at h
      obtain ⟨rfl, rfl⟩ := h
      simp
    | some zsd =>
      have hread : run (settingsPairRead lib mem) fuel zsd = _ :=
        run_map Decoder.zsd _ settingsPairRead_step fuel { d with zsd }
      cases hrun : run (settingsStep lib mem) fuel { d with zsd } with
      | none => simp [hnil, hstart, hrun] at h
      | some r =>
        obtain ⟨e, t⟩ := r
        have hversion : t.world.version = d.world.version := settingsRun_version hrun
        simp only [hnil, hstart, hrun] at h
        simp only [hread, hrun, Option.map_some]
        cases e with
        | some e =>
          simp only [Option.some.injEq, Prod.mk.injEq] at h
          obtain ⟨rfl, rfl⟩ := h
          simp [hversion]
        | none =>
          simp only [if_true]
          cases hend : lib.mapEndDecode t.zsd with
          | none =>
            simp only [hend, Option.some.injEq, Prod.mk.injEq] at h
            obtain ⟨rfl, rfl⟩ := h
            simp [hversion]
          | some z =>
            simp only [hend, Option.some.injEq, Prod.mk.injEq] at h
            obtain ⟨rfl, rfl⟩ := h
            simp [hversion]

def DocumentValue.entry : DocumentValue → Option (Fin 2)
  | .settings => some settingsEntry
  | .version _ => some versionEntry
  | .other => none

def DocumentValue.leaves (version : Int) : DocumentValue → Int
  | .version v => v
  | _ => version

def DocumentPair.record (p : DocumentPair) : List (Nat × Nat) :=
  p.value.entry.toList.map fun i => (i.val, p.address)

theorem mapEntryGet_document (fuel : Nat) (key : ZcborMapKey) :
    mapEntryGet mem (settingsEntries lib mem fuel) key = documentEntry mem key := by
  have hkeys : (fun i => entryMatches mem ((settingsEntries lib mem fuel).get i).key key) =
      fun i => entryMatches mem ((![settingsKey, versionKey] : Fin 2 → EntryKey) i) key := by
    funext i
    fin_cases i <;> rfl
  simp only [mapEntryGet, documentEntry]
  exact congrArg Fin.find? hkeys

/-- A callback that returns 0 has read the value of a pair; one that fails has left the version
alone. -/
theorem entryDecode_document {fuel : Nat} (entry : Option (Fin 2)) {d d' : Decoder Settings}
    {ret : DecodeRet}
    (h : entryDecode lib (settingsEntries lib mem fuel) entry d = some (ret, d')) :
    (ret = .ok ∧ ∃ value, documentValue lib mem fuel entry d.zsd = some (value, d'.zsd) ∧
      value.entry = entry ∧ d'.world.version = value.leaves d.world.version) ∨
    (ret ≠ .ok ∧ documentValue lib mem fuel entry d.zsd = none ∧
      d'.world.version = d.world.version) := by
  cases entry with
  | none =>
    simp only [entryDecode] at h
    cases hskip : lib.anySkip d.zsd with
    | none =>
      simp only [hskip, Option.some.injEq, Prod.mk.injEq] at h
      obtain ⟨rfl, rfl⟩ := h
      exact Or.inr ⟨by simp, by simp [documentValue, hskip], rfl⟩
    | some zsd =>
      simp only [hskip, Option.some.injEq, Prod.mk.injEq] at h
      obtain ⟨rfl, rfl⟩ := h
      exact Or.inl ⟨rfl, .other, by simp [documentValue, hskip], rfl, rfl⟩
  | some i =>
    by_cases hi : i = settingsEntry
    · subst hi
      have hread := settingsDecode_read (show settingsDecode lib mem fuel d = some (ret, d') from h)
      by_cases hok : ret = .ok
      · rw [if_pos hok] at hread
        exact Or.inl ⟨hok, .settings, by simp [documentValue, hread.1], rfl, hread.2⟩
      · rw [if_neg hok] at hread
        exact Or.inr ⟨hok, by simp [documentValue, hread.1], hread.2⟩
    · obtain rfl : i = versionEntry := by
        fin_cases i
        · exact absurd rfl hi
        · rfl
      have hdecode : mapValueDecode lib.int64Decode
          (fun version settings => { settings with version }) d = (ret, d') := Option.some.inj h
      have hne : versionEntry ≠ settingsEntry := by decide
      simp only [mapValueDecode] at hdecode
      cases hint : lib.int64Decode d.zsd with
      | none =>
        simp only [hint, Prod.mk.injEq] at hdecode
        obtain ⟨rfl, rfl⟩ := hdecode
        exact Or.inr ⟨by simp, by simp [documentValue, hne, hint], rfl⟩
      | some value =>
        simp only [hint, Prod.mk.injEq] at hdecode
        obtain ⟨rfl, rfl⟩ := hdecode
        exact Or.inl ⟨rfl, .version value.1, by simp [documentValue, hne, hint], rfl, rfl⟩

/-- The same of the callbacks that keep a record: it grows by the value that has been read. -/
theorem entryDecode_document_recorded {fuel : Nat} (key : ZcborMapKey)
    {d d' : Decoder (Settings × List (Nat × Nat))} {ret : DecodeRet}
    (h : entryDecode lib (recorded (settingsEntries lib mem fuel))
      (mapEntryGet mem (recorded (settingsEntries lib mem fuel)) key) d = some (ret, d')) :
    (ret = .ok ∧ ∃ value,
      documentValue lib mem fuel (documentEntry mem key) d.zsd = some (value, d'.zsd) ∧
      (mapEntryGet mem (recorded (settingsEntries lib mem fuel)) key).toList.length =
        value.entry.toList.length ∧
      d'.world.2 = d.world.2++value.entry.toList.map (fun i => (i.val, d.zsd.payload)) ∧
      d'.world.1.version = value.leaves d.world.1.version) ∨
    (ret ≠ .ok ∧ documentValue lib mem fuel (documentEntry mem key) d.zsd = none ∧
      d'.world.2 = d.world.2 ∧ d'.world.1.version = d.world.1.version) := by
  have hget := mapEntryGet_recorded mem (settingsEntries lib mem fuel) key
  rw [mapEntryGet_document] at hget
  have hplain := entryDecode_unrecorded lib
    (mapEntryGet mem (recorded (settingsEntries lib mem fuel)) key) d
  rw [h, ← hget] at hplain
  have hrecord := entryDecode_record h
  generalize mapEntryGet mem (recorded (settingsEntries lib mem fuel)) key = entry at hget hrecord ⊢
  cases entryDecode_document (documentEntry mem key) hplain with
  | inl hok =>
    obtain ⟨rfl, value, hread, hentry, hversion⟩ := hok
    refine Or.inl ⟨rfl, value, hread, ?_, ?_, hversion⟩
    · rw [hentry, hget]
      cases entry <;> rfl
    · rw [hrecord, if_pos rfl, hentry, hget]
      cases entry <;> rfl
  | inr herr =>
    obtain ⟨hret, hread, hversion⟩ := herr
    rw [if_neg (show ret ≠ .ok from hret), List.append_nil] at hrecord
    exact Or.inr ⟨hret, hread, hrecord, hversion⟩

section
variable {fuel : Nat} {s : MapLoop (Settings × List (Nat × Nat))
  (recorded (settingsEntries lib mem fuel)).length}

/-- A round of zcbor_map_decode reads the next pair, or ends because there is none. -/
theorem mapDecodeStep_document
    (hwanted : s.numDecoded < (recorded (settingsEntries lib mem fuel)).length) :
    (∀ r, mapDecodeStep lib mem (recorded (settingsEntries lib mem fuel)) s = some (.inr r) →
      documentPair lib mem fuel s.key s.decoder.zsd = none ∧
        r.2.decoder.world.2 = s.decoder.world.2 ∧
        r.2.decoder.world.1.version = s.decoder.world.1.version) ∧
    ∀ t, mapDecodeStep lib mem (recorded (settingsEntries lib mem fuel)) s = some (.inl t) →
      ∃ p, documentPair lib mem fuel s.key s.decoder.zsd = some (t.key, p, t.decoder.zsd) ∧
        t.decoder.world.2 = s.decoder.world.2++p.record ∧
        t.numDecoded = s.numDecoded + p.record.length ∧
        t.decoder.world.1.version = p.value.leaves s.decoder.world.1.version := by
  obtain ⟨hzsd, hworld⟩ := zcborListOrMapEnd_zsd mem s.decoder
  have hended := listOrMapEnd_fst_congr mem (⟨s.decoder.zsd, [], ()⟩ : Decoder Unit) s.decoder rfl
  cases hmore : (zcborListOrMapEnd mem s.decoder).1 with
  | true =>
    simp only [mapDecodeStep, hwanted, hmore, if_true]
    constructor
    · intro r hr
      cases hr
      exact ⟨by simp [documentPair, hended, hmore], congrArg Prod.snd hworld, by rw [hworld]⟩
    · simp
  | false =>
    simp only [mapDecodeStep, hwanted, hmore, documentPair, hended, if_true, Bool.false_eq_true,
      if_false, zcborMapKeyDecode_eq, hzsd]
    cases hkey : mapKeyRead lib mem s.decoder.zsd with
    | none =>
      constructor
      · intro r hr
        cases hr
        exact ⟨rfl, congrArg Prod.snd hworld, by rw [Decoder.look, hworld]⟩
      · simp
    | some kz =>
      obtain ⟨k, z⟩ := kz
      dsimp only
      generalize hd : ({ (zcborListOrMapEnd mem s.decoder).2.look with zsd := z } :
        Decoder (Settings × List (Nat × Nat))) = d
      have hz : d.zsd = z := by rw [← hd]
      have hw : d.world = s.decoder.world := by rw [← hd, ← hworld]; rfl
      cases hvalue : entryDecode lib (recorded (settingsEntries lib mem fuel))
          (mapEntryGet mem (recorded (settingsEntries lib mem fuel)) (k.put s.key)) d with
      | none => simp
      | some value =>
        obtain ⟨ret, d'⟩ := value
        have hread := entryDecode_document_recorded (k.put s.key) hvalue
        rw [hz, hw] at hread
        cases ret with
        | ok =>
          obtain ⟨-, value, hread, hcount, hrecord, hversion⟩ | ⟨hret, -⟩ := hread
          · refine ⟨by simp, fun t ht => ?_⟩
            cases ht
            refine ⟨⟨k, z.payload, value⟩, by simp [hread], hrecord, ?_, hversion⟩
            rw [MapLoop.numDecoded_concat, hcount, DocumentPair.record, List.length_map]
          · exact absurd rfl hret
        | err e =>
          obtain ⟨hret, -⟩ | ⟨-, hread, hrecord, hversion⟩ := hread
          · cases hret
          · refine ⟨fun r hr => ?_, by simp⟩
            cases hr
            exact ⟨by simp [hread], hrecord, hversion⟩

def documentLeaves : List (Nat × Nat) → Int → List DocumentPair → List (Nat × Nat) × Int
  | record, version, [] => (record, version)
  | record, version, p :: ps =>
    if record.length < 2 then documentLeaves (record++p.record) (p.value.leaves version) ps
    else (record, version)

theorem documentLeaves_full {record : List (Nat × Nat)} (h : ¬ record.length < 2) (version : Int)
    (ps : List DocumentPair) : documentLeaves record version ps = (record, version) := by
  cases ps with
  | nil => rfl
  | cons p ps => simp only [documentLeaves, h, if_false]

theorem mapDecodeRun_document {rounds : Nat} {r : Option DecodeErrno ×
      MapLoop (Settings × List (Nat × Nat)) (recorded (settingsEntries lib mem fuel)).length}
    (hnum : s.numDecoded = s.decoder.world.2.length)
    (h : run (mapDecodeStep lib mem (recorded (settingsEntries lib mem fuel))) rounds s = some r) :
    (r.2.decoder.world.2, r.2.decoder.world.1.version) =
      documentLeaves s.decoder.world.2 s.decoder.world.1.version
        (documentPairs lib mem fuel rounds s.key s.decoder.zsd) := by
  induction rounds generalizing s with
  | zero => cases h
  | succ rounds ih =>
    by_cases hwanted : s.numDecoded < (recorded (settingsEntries lib mem fuel)).length
    · obtain ⟨hlast, hnext⟩ := mapDecodeStep_document hwanted
      rw [run] at h
      cases hstep : mapDecodeStep lib mem (recorded (settingsEntries lib mem fuel)) s with
      | none => simp [hstep] at h
      | some next =>
        rw [hstep] at h
        cases next with
        | inr r' =>
          cases h
          obtain ⟨hnone, hrecord, hversion⟩ := hlast r hstep
          simp only [documentPairs, hnone, documentLeaves, hrecord, hversion]
        | inl t =>
          obtain ⟨p, hpair, hrecord, hcount, hversion⟩ := hnext t hstep
          have hfew : s.decoder.world.2.length < 2 := hnum ▸ hwanted
          rw [ih (by rw [hcount, hrecord, List.length_append, hnum]) h, hrecord, hversion]
          simp only [documentPairs, hpair, documentLeaves, hfew, if_true]
    · have hend : mapDecodeStep lib mem (recorded (settingsEntries lib mem fuel)) s =
          some (.inr (none, s)) := by
        simp only [mapDecodeStep, hwanted, if_false]
      rw [run_inr hend (Nat.succ_pos rounds)] at h
      cases h
      have hfull : ¬ s.decoder.world.2.length < 2 := hnum ▸ hwanted
      rw [documentLeaves_full hfull]

end

/-- settings_downlink leaves what its pairs leave. -/
theorem zcborMapDecode_document {fuel : Nat} {key : ZcborMapKey} {z : ZcborState}
    {settings : Settings} {ret : DecodeRet}
    {t : MapLoop (Settings × List (Nat × Nat)) (recorded (settingsEntries lib mem fuel)).length}
    (h : zcborMapDecode lib mem (recorded (settingsEntries lib mem fuel)) fuel key
      ⟨z, [], settings, []⟩ = some (ret, t)) :
    (t.decoder.world.2, t.decoder.world.1.version) = documentLeaves [] settings.version
      (match lib.mapStartDecode z with
        | none => []
        | some zsd => documentPairs lib mem fuel fuel key zsd) := by
  unfold zcborMapDecode at h
  cases hstart : lib.mapStartDecode z with
  | none =>
    simp only [hstart] at h
    cases h
    rfl
  | some zsd =>
    simp only [hstart] at h
    cases hrun : run (mapDecodeStep lib mem (recorded (settingsEntries lib mem fuel))) fuel
        ⟨⟨zsd, [], settings, []⟩, key, []⟩ with
    | none => simp [hrun] at h
    | some r =>
      have hleaves := mapDecodeRun_document (Eq.refl 0) hrun
      obtain ⟨e, u⟩ := r
      simp only [hrun] at h
      suffices hsame : t.decoder.world = u.decoder.world by
        rw [hsame]
        exact hleaves
      have hend : ∀ ret', mapEndDecode lib (recorded (settingsEntries lib mem fuel)) ret' u = (ret, t) →
          t.decoder.world = u.decoder.world := by
        intro ret' heq
        simp only [mapEndDecode] at heq
        split at heq <;> cases heq <;> rfl
      cases e with
      | some e =>
        cases h
        rfl
      | none =>
        dsimp only at h
        split at h
        · exact hend _ (Option.some.inj h)
        · split at h
          · cases h
            rfl
          · exact hend _ (Option.some.inj h)

theorem settingsMapRead_forward (hlib : lib.Lawful mem) {fuel : Nat} {z z' : ZcborState}
    (h : settingsMapRead lib mem fuel z = some z') : z.payload ≤ z'.payload := by
  unfold settingsMapRead at h
  split at h
  · cases h
  · split at h
    · cases h
    · next zsd hstart =>
      split at h
      · next last hrun =>
        obtain ⟨t, hreaches, hend⟩ := exists_of_run hrun
        have hstep : ∀ u v, zsd.payload ≤ u.payload → settingsPairRead lib mem u = some (.inl v) →
            zsd.payload ≤ v.payload := by
          intro u v hu hpair
          simp only [settingsPairRead] at hpair
          split at hpair
          · cases hpair
          · split at hpair
            · cases hpair
            · next label w hlabel =>
              have hforward := (hlib.tstr _ _ _ hlabel).forward
              split at hpair
              · next data w' hvalue =>
                cases hpair
                exact (hu.trans hforward.le).trans (settingValueDecode_reads hlib hvalue).forward.le
              · split at hpair
                · cases hpair
                · next w' hskip =>
                  cases hpair
                  exact (hu.trans hforward.le).trans (hlib.skip _ _ hskip).forward.le
        have hlast : t = last := by
          simp only [settingsPairRead] at hend
          split at hend
          · cases hend
            rfl
          · repeat' split at hend
            all_goals cases hend
        subst hlast
        have hle := hreaches.invariant (P := fun u => zsd.payload ≤ u.payload) hstep le_rfl
        exact ((hlib.mapStart _ _ hstart).1.forward.le.trans hle).trans (hlib.mapEnd _ _ h).1
      · cases h

theorem documentValue_forward (hlib : lib.Lawful mem) {fuel : Nat} {entry : Option (Fin 2)}
    {z z' : ZcborState} {value : DocumentValue}
    (h : documentValue lib mem fuel entry z = some (value, z')) : z.payload ≤ z'.payload := by
  cases entry with
  | none =>
    obtain ⟨zsd, hskip, heq⟩ := Option.map_eq_some_iff.mp h
    cases heq
    exact (hlib.skip _ _ hskip).forward.le
  | some i =>
    simp only [documentValue] at h
    split at h
    · obtain ⟨zsd, hread, heq⟩ := Option.map_eq_some_iff.mp h
      cases heq
      exact settingsMapRead_forward hlib hread
    · obtain ⟨⟨v, zsd⟩, hread, heq⟩ := Option.map_eq_some_iff.mp h
      cases heq
      exact (hlib.int64 _ _ _ hread).forward.le

/-- The values of a document lie one behind the other. -/
theorem documentPairs_forward (hlib : lib.Lawful mem) (fuel rounds : Nat) (key : ZcborMapKey)
    (z : ZcborState) : (∀ p ∈ documentPairs lib mem fuel rounds key z, z.payload < p.address) ∧
      (documentPairs lib mem fuel rounds key z).Pairwise (·.address < ·.address) := by
  induction rounds generalizing key z with
  | zero => simp [documentPairs]
  | succ rounds ih =>
    cases hpair : documentPair lib mem fuel key z with
    | none => simp [documentPairs, hpair]
    | some next =>
      obtain ⟨key', p, z'⟩ := next
      have hforward : z.payload < p.address ∧ p.address ≤ z'.payload := by
        simp only [documentPair] at hpair
        split at hpair
        · cases hpair
        · split at hpair
          · cases hpair
          · next k zv hkey =>
            obtain ⟨⟨value, z''⟩, hvalue, heq⟩ := Option.map_eq_some_iff.mp hpair
            cases heq
            exact ⟨(mapKeyRead_reads hlib hkey).forward, documentValue_forward hlib hvalue⟩
      obtain ⟨hrest, hpairwise⟩ := ih key' z'
      simp only [documentPairs, hpair, List.mem_cons, forall_eq_or_imp, List.pairwise_cons]
      exact ⟨⟨hforward.1, fun q hq => hforward.1.trans (hforward.2.trans_lt (hrest q hq))⟩,
        fun q hq => hforward.2.trans_lt (hrest q hq), hpairwise⟩

end

theorem documentLeaves_taken (record : List (Nat × Nat)) (version : Int) (ps : List DocumentPair) :
    documentLeaves record version ps = documentLeaves record version (DocumentPair.taken ps) := by
  induction ps generalizing record version with
  | nil => rfl
  | cons p ps ih =>
    by_cases hfew : record.length < 2
    · by_cases hother : p.value = .other
      · have hcons : DocumentPair.taken (p :: ps) = DocumentPair.taken ps := by
          simp [DocumentPair.taken, hother]
        rw [hcons, ← ih]
        simp [documentLeaves, hfew, DocumentPair.record, DocumentValue.entry, DocumentValue.leaves, hother]
      · have hcons : DocumentPair.taken (p :: ps) = p :: DocumentPair.taken ps := by
          simp [DocumentPair.taken, hother]
        simp only [hcons, documentLeaves, hfew, if_true]
        exact ih _ _
    · rw [documentLeaves_full hfew, documentLeaves_full hfew]

theorem settings_recorded_iff (mem : Memory) {ps : List DocumentPair}
    (hps : ps.Pairwise (·.address < ·.address)) (record : List (Nat × Nat)) (p : DocumentPair)
    (hp : p ∈ ps)
    (hrecord : ∀ address, (settingsEntry.val, address) ∈ record ↔ address = p.address) :
    (∃ q ∈ ps, q.key.For mem settingsKey ∧ (settingsEntry.val, q.address) ∈ record) ↔
      p.key.For mem settingsKey := by
  constructor
  · rintro ⟨q, hq, hkey, hmem⟩
    have hnodup : (ps.map DocumentPair.address).Nodup :=
      List.pairwise_map.mpr (hps.imp fun hlt => Nat.ne_of_lt hlt)
    obtain rfl : q = p := List.inj_on_of_nodup_map hnodup hq hp ((hrecord q.address).mp hmem)
    exact hkey
  · exact fun hkey => ⟨p, hp, hkey, (hrecord p.address).mpr rfl⟩

/-- A new version is one of a document with its settings exactly if it is guarded. -/
theorem documentLeaves_applied_iff (mem : Memory) (version : Int) {ps : List DocumentPair}
    (hps : ps.Pairwise (·.address < ·.address)) :
    ((documentLeaves [] version ps).2 = version ∨
      (HasVersion mem (documentLeaves [] version ps).2 ps ∧
        ∃ p ∈ ps, p.key.For mem settingsKey ∧
          (settingsEntry.val, p.address) ∈ (documentLeaves [] version ps).1)) ↔
      VersionGuarded mem version ps := by
  rw [documentLeaves_taken]
  have hsettings := settings_recorded_iff mem hps
  have hother : ∀ p ∈ DocumentPair.taken ps, p.value ≠ .other := by simp [DocumentPair.taken]
  have hmem : ∀ p ∈ DocumentPair.taken ps, p ∈ ps := fun p => List.mem_of_mem_filter
  unfold VersionGuarded
  generalize DocumentPair.taken ps = rs at hother hmem
  have htwo : ∀ i j v rest, documentLeaves [i, j] v rest = ([i, j], v) := fun i j v rest =>
    documentLeaves_full (by simp) v rest
  match rs with
  | [] => simp [documentLeaves]
  | ⟨_, _, .other⟩ :: _ => simp at hother
  | [⟨_, _, .settings⟩] => simp [documentLeaves, DocumentValue.leaves]
  | [⟨_, a, .version v⟩] =>
    simp [documentLeaves, DocumentValue.leaves, DocumentPair.record, DocumentValue.entry,
      settingsEntry, versionEntry]
  | _ :: ⟨_, _, .other⟩ :: _ => simp at hother
  | ⟨_, _, .settings⟩ :: ⟨_, _, .settings⟩ :: rest =>
    simp [documentLeaves, DocumentValue.leaves, DocumentPair.record, DocumentValue.entry, htwo]
  | ⟨k, a, .settings⟩ :: ⟨k', a', .version v⟩ :: rest =>
    have hleaves : documentLeaves [] version (⟨k, a, .settings⟩ :: ⟨k', a', .version v⟩ :: rest) =
        ([(0, a), (1, a')], v) := htwo (0, a) (1, a') v rest
    have hrecord := hsettings [(0, a), (1, a')] ⟨k, a, .settings⟩ (hmem _ List.mem_cons_self)
      fun address => by simp [settingsEntry]
    rw [hleaves]
    exact or_congr_right (and_congr_right fun _ => hrecord)
  | ⟨k', a', .version v⟩ :: ⟨k, a, .settings⟩ :: rest =>
    have hleaves : documentLeaves [] version (⟨k', a', .version v⟩ :: ⟨k, a, .settings⟩ :: rest) =
        ([(1, a'), (0, a)], v) := htwo (1, a') (0, a) v rest
    have hrecord := hsettings [(1, a'), (0, a)] ⟨k, a, .settings⟩
      (hmem _ (List.mem_cons_of_mem _ List.mem_cons_self)) fun address => by simp [settingsEntry]
    rw [hleaves]
    exact or_congr_right (and_congr_right fun _ => hrecord)
  | ⟨_, _, .version v⟩ :: ⟨_, _, .version w⟩ :: rest =>
    simp [documentLeaves, DocumentValue.leaves, DocumentPair.record, DocumentValue.entry, htwo,
      settingsEntry, versionEntry]

/-- settings_downlink returns, whatever the document. -/
theorem settingsDownlink_returns {lib : Zcbor} {mem : Memory} (hlib : lib.Lawful mem)
    (key : ZcborMapKey) (address len : Nat) (settings : Settings) :
    ∃ ret s, settingsDownlink lib mem (len + 1) key address len settings = some (ret, s) := by
  obtain ⟨ret, s, hdecode, -⟩ := zcborMapDecode_follows hlib (settingsReader_of hlib (len + 1))
    (Nat.succ_pos 1) key ⟨zcborStateD 2 address len, [], settings⟩ (zcborStateD_bounded 2 address len)
    (by rw [zcborStateD_left]; exact Nat.lt_succ_self len)
  exact ⟨ret, s, hdecode⟩

section
variable {lib : Memory → Zcbor} (hlib : ∀ mem, (lib mem).Lawful mem)
include hlib

/-- What is received is what settings_downlink leaves. -/
theorem settingsReceive_downlink (settings : Settings) (doc : SettingsDocument) :
    ∃ ret s, settingsDownlink (lib doc.mem) doc.mem (doc.len + 1) doc.key doc.address doc.len settings =
        some (ret, s) ∧ s.decoder.world = (settingsReceive lib settings doc).1 ∧
      ((settingsReceive lib settings doc).2, s.decoder.world.version) =
        documentLeaves [] settings.version (doc.pairs lib) := by
  obtain ⟨ret, s, hdecode⟩ := settingsDownlink_returns (hlib doc.mem) doc.key doc.address doc.len settings
  have hrecorded : settingsDownlink (lib doc.mem) doc.mem (doc.len + 1) doc.key doc.address doc.len
      settings = _ := zcborMapDecode_unrecorded (lib doc.mem) doc.mem
    (settingsEntries (lib doc.mem) doc.mem (doc.len + 1)) (doc.len + 1) doc.key
    ⟨zcborStateD 2 doc.address doc.len, [], settings, []⟩
  rw [hdecode] at hrecorded
  obtain ⟨⟨ret', t⟩, ht, heq⟩ := Option.map_eq_some_iff.mp hrecorded.symm
  cases heq
  refine ⟨_, _, hdecode, ?_, ?_⟩
  · simp only [settingsReceive, ht]
    rfl
  · have hleaves := zcborMapDecode_document ht
    simp only [settingsReceive, ht]
    exact hleaves

theorem versionApplied_iff (settings : Settings) (doc : SettingsDocument) :
    VersionApplied lib settings doc ↔ VersionGuarded doc.mem settings.version (doc.pairs lib) := by
  obtain ⟨ret, s, -, hworld, hleaves⟩ := settingsReceive_downlink hlib settings doc
  have hforward : (doc.pairs lib).Pairwise (·.address < ·.address) := by
    unfold SettingsDocument.pairs
    split
    · exact List.Pairwise.nil
    · exact (documentPairs_forward (hlib doc.mem) _ _ _ _).2
  rw [← documentLeaves_applied_iff doc.mem settings.version hforward, ← hleaves, hworld]
  rfl

/-- All along a run of documents, the version only changes to one of a document whose settings
have been decoded to their end, exactly if every document guards its version. -/
theorem settings_version_applied_iff (settings : Settings) (docs : List SettingsDocument) :
    (∀ u doc v, docs = u++doc :: v → VersionApplied lib (settingsFinal lib settings u) doc) ↔
      ∀ u doc v, docs = u++doc :: v →
        VersionGuarded doc.mem (settingsFinal lib settings u).version (doc.pairs lib) := by
  constructor
  · intro h u doc v hsplit
    exact (versionApplied_iff hlib _ doc).mp (h u doc v hsplit)
  · intro h u doc v hsplit
    exact (versionApplied_iff hlib _ doc).mpr (h u doc v hsplit)

end

def settingsText : Buf := [0x68, 0x73, 0x65, 0x74, 0x74, 0x69, 0x6E, 0x67, 0x73]
def versionText : Buf := [0x67, 0x76, 0x65, 0x72, 0x73, 0x69, 0x6F, 0x6E]

def documentOf (bytes : Buf) : SettingsDocument :=
  ⟨memoryAt ramBase bytes, ⟨.u32, 0, 0⟩, ramBase, bytes.length⟩

def settingsFirst : SettingsDocument :=
  documentOf ([0xA2]++settingsText++[0xA1, 0x61, 0x61, 5]++versionText++[7])
def versionFirst : SettingsDocument := documentOf ([0xA2]++versionText++[9]++settingsText++[0xA0])
def versionAlone : SettingsDocument :=
  documentOf ([0xA2]++versionText++[9]++settingsText++[0xA1, 1, 2])

theorem settings_version_applied_both_orders :
    VersionApplied shortZcbor .boot settingsFirst ∧
    VersionApplied shortZcbor (settingsFinal shortZcbor .boot [settingsFirst]) versionFirst := by
  have hall := (settings_version_applied_iff shortZcbor_lawful .boot [settingsFirst, versionFirst]).mpr
  have hfirst : settingsFirst.pairs shortZcbor =
      [⟨.tstr ⟨ramBase + 2, 8⟩, ramBase + 10, .settings⟩,
        ⟨.tstr ⟨ramBase + 15, 7⟩, ramBase + 22, .version 7⟩] := by decide
  have hsecond : versionFirst.pairs shortZcbor =
      [⟨.tstr ⟨ramBase + 2, 7⟩, ramBase + 9, .version 9⟩,
        ⟨.tstr ⟨ramBase + 11, 8⟩, ramBase + 19, .settings⟩] := by decide
  rw [forall_steps_cons (settingsReceive shortZcbor)
    (Q := fun s doc => VersionGuarded doc.mem s.version (doc.pairs shortZcbor)),
    forall_steps_cons (settingsReceive shortZcbor)
      (Q := fun s doc => VersionGuarded doc.mem s.version (doc.pairs shortZcbor))] at hall
  have happlied := hall ⟨by
      rw [hfirst]
      exact Or.inr ⟨⟨_, List.mem_cons_of_mem _ List.mem_cons_self, by decide, rfl⟩, by decide⟩, by
      rw [hsecond]
      exact Or.inr ⟨⟨_, List.mem_cons_self, by decide, rfl⟩, by decide⟩,
    forall_steps_nil (settingsReceive shortZcbor)
      (Q := fun s doc => VersionGuarded doc.mem s.version (doc.pairs shortZcbor)) _⟩
  exact ⟨happlied [] settingsFirst [versionFirst] rfl, happlied [settingsFirst] versionFirst [] rfl⟩

def versionAtInteger : SettingsDocument :=
  let bytes := [0xA3, 0x67]++List.replicate 7 0x78++versionText++[0x18, 26, 9]++settingsText++[0xA0]
  ⟨memoryAt 16 bytes, ⟨.u32, 0, 0⟩, 16, bytes.length⟩

example : (settingsReceive shortZcbor .boot versionAtInteger).1.version = 9 ∧
    ¬ HasVersion versionAtInteger.mem 9 (versionAtInteger.pairs shortZcbor) := by
  decide

/-- The settings have a label that is not a text, and the version that stands before them stays. -/
theorem version_without_settings :
    (settingsReceive shortZcbor .boot versionAlone).1.version = 9 ∧
    (settingsReceive shortZcbor .boot versionAlone).2 = [(versionEntry.val, ramBase + 9)] ∧
    ¬ VersionApplied shortZcbor .boot versionAlone := by
  have hversion : (settingsReceive shortZcbor .boot versionAlone).1.version = 9 := by decide
  have hdecoded : (settingsReceive shortZcbor .boot versionAlone).2 =
      [(versionEntry.val, ramBase + 9)] := by
    decide
  refine ⟨hversion, hdecoded, ?_⟩
  rintro (hsame | ⟨-, p, -, -, hsettings⟩)
  · rw [hversion] at hsame
    exact absurd hsame (by decide)
  · rw [hdecoded] at hsettings
    simp [settingsEntry, versionEntry] at hsettings

end Pouch
