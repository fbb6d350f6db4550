import PouchNode.OtaStream

/-! The texts of the OTA service and the arrays they are kept in: the path of a component
stream, and the version in a manifest. -/
namespace Pouch

theorem exists_of_idxOf? {rest : Buf} {c : UInt8} {k : Nat} (h : rest.idxOf? c = some k) :
    rest = rest.take k++c :: rest.drop (k + 1) ∧ c ∉ rest.take k := by
  obtain ⟨hk, hc, hbefore⟩ := List.idxOf?_eq_some_iff.mp h
  constructor
  · rw [← hc, List.getElem_cons_drop, List.take_append_drop]
  · intro hmem
    obtain ⟨j, hj, hget⟩ := List.mem_take_iff_getElem.mp hmem
    exact hbefore j (by omega) hget

section
variable (cfg : OtaConfig)

def ParsesWithin (id : UInt32) (rest : Buf) (d : ComponentDownload) :
    Except OtaFault ComponentDownload → Prop
  | .error _ => False
  | .ok download =>
    (∃ name version, rest = name++0x40 :: version ∧ 0x40 ∉ name ∧
      download = ⟨id, 0, name, version.take cfg.maxVersionLen⟩) ∨
    (0x40 ∉ rest ∧ download = { d with downlinkId := downlinkIdInvalid })

theorem otaReceiveComponentStart_parses (id : UInt32) (rest : Buf) (d : ComponentDownload) :
    ParsesWithin cfg id rest d
        (otaReceiveComponentStart cfg id (if rest = [] then none else some rest) d) ↔
      rest ≠ [] ∧ ∀ nameLen, rest.idxOf? 0x40 = some nameLen → nameLen ≤ cfg.maxPackageNameLen := by
  cases otaReceiveComponentStart_cases cfg id rest d with
  | inr hr =>
    obtain ⟨hnot, fault, herror⟩ := hr
    rw [herror]
    exact iff_of_false (fun h => h) hnot
  | inl hr =>
    obtain ⟨hfits, -⟩ := hr
    refine iff_of_true ?_ hfits
    rw [if_neg hfits.1]
    cases hat : rest.idxOf? 0x40 with
    | none =>
      have hnone : 0x40 ∉ rest := List.idxOf?_eq_none_iff.mp hat
      simp only [otaReceiveComponentStart, hat]
      exact Or.inr ⟨hnone, rfl⟩
    | some nameLen =>
      have hle : ¬ cfg.maxPackageNameLen < nameLen := not_lt.mpr (hfits.2 nameLen hat)
      obtain ⟨hrest, hname⟩ := exists_of_idxOf? hat
      simp only [otaReceiveComponentStart, hat, hle, if_false]
      exact Or.inl ⟨_, _, hrest, hname, rfl⟩

end

/-- What otaComponent is given of a path that it matches. -/
theorem otaComponent_remainder (path : CString) (h : otaComponent.isMatch path = true) :
    otaComponent.pathRemainder path =
      if path.chars.drop componentPrefix.length = [] then none
      else some (path.chars.drop componentPrefix.length) := by
  have hlen : otaComponent.pathLen = componentPrefix.length := by decide
  have hpattern : otaComponent.path.chars.take otaComponent.pathLen = componentPrefix := by decide
  have hmatch : componentPrefix = path.chars.take componentPrefix.length := by
    rw [GoliothDownlinkService.isMatch, decide_eq_true_eq, hpattern, hlen] at h
    exact h
  have hpath : path.chars = componentPrefix++path.chars.drop componentPrefix.length := by
    calc
      path.chars = path.chars.take componentPrefix.length++path.chars.drop componentPrefix.length :=
          (List.take_append_drop _ _).symm
      _ = componentPrefix++path.chars.drop componentPrefix.length := by rw [← hmatch]
  have hrest : (0 : UInt8) ∉ path.chars.drop componentPrefix.length := fun hmem =>
    path.no_nul (List.mem_of_mem_drop hmem)
  have heq : path = componentPath ⟨_, hrest⟩ := by
    cases path
    simp only [componentPath, CString.mk.injEq]
    exact hpath
  rw [heq, pathRemainder_component]
  simp only [componentPath, List.drop_left]

/-- A path that is dispatched to the component service is parsed within bounds, and recorded or
marked invalid, exactly if something follows the prefix and the name in it fits. -/
theorem component_path_within_bounds_iff (cfg : OtaConfig) (services : List GoliothDownlinkService)
    (path : CString) (service : Fin services.length)
    (hroute : matchingService services path = some service)
    (hservice : services.get service = otaComponent) (streamId : UInt32)
    (d : Dispatch services.length) (download : ComponentDownload) :
    (∃ remainder, (d.pouchDownlinkStart services streamId path).2 =
        [.start service streamId remainder] ∧
      ParsesWithin cfg streamId (path.chars.drop componentPrefix.length) download
        (otaReceiveComponentStart cfg streamId remainder download)) ↔
    path.chars.drop componentPrefix.length ≠ [] ∧
      ∀ nameLen, (path.chars.drop componentPrefix.length).idxOf? 0x40 = some nameLen →
        nameLen ≤ cfg.maxPackageNameLen := by
  have hmatch : otaComponent.isMatch path = true := by
    have hm := (Fin.find?_eq_some_iff.mp hroute).1
    rwa [hservice] at hm
  have hcb : otaComponent.hasStartCb = true := rfl
  rw [← otaReceiveComponentStart_parses cfg streamId _ download]
  simp only [Dispatch.pouchDownlinkStart, hroute, hservice, hcb, if_true,
    otaComponent_remainder path hmatch, List.cons.injEq, ServiceCall.start.injEq, true_and, and_true,
    exists_eq_left']

def componentPathA : CString := componentPath ⟨[0x61, 0x40, 0x31], by decide⟩

theorem component_path_a_within_bounds :
    ∃ remainder, ((Dispatch.boot _).pouchDownlinkStart otaServices 1 componentPathA).2 =
        [.start componentService 1 remainder] ∧
      ParsesWithin otaDefaults 1 (componentPathA.chars.drop componentPrefix.length)
        ⟨downlinkIdInvalid, 0, [], []⟩
        (otaReceiveComponentStart otaDefaults 1 remainder ⟨downlinkIdInvalid, 0, [], []⟩) :=
  (component_path_within_bounds_iff otaDefaults otaServices componentPathA componentService
    (matchingService_component _) rfl 1 (Dispatch.boot _) _).mpr
    ⟨by decide, fun nameLen h => by cases h; decide⟩

def componentPathEmpty : CString := componentPath ⟨[], by decide⟩
def componentPathLong : CString := componentPath ⟨List.replicate 33 0x61++[0x40, 0x31], by decide⟩

/-- Paths with nothing behind the prefix and with a name of 33 bytes are dispatched to the
component service, and run into a fault. -/
theorem component_paths_out_of_bounds :
    componentPathEmpty.chars.length ≤ 255 ∧ componentPathLong.chars.length ≤ 255 ∧
    (∀ path ∈ [componentPathEmpty, componentPathLong],
      matchingService otaServices path = some componentService) ∧
    otaReceiveComponentStart otaDefaults 1 (otaComponent.pathRemainder componentPathEmpty)
      ⟨downlinkIdInvalid, 0, [], []⟩ = .error .nullRemainder ∧
    otaReceiveComponentStart otaDefaults 1 (otaComponent.pathRemainder componentPathLong)
      ⟨downlinkIdInvalid, 0, [], []⟩ = .error .nameOverflow ∧
    ∀ path ∈ [componentPathEmpty, componentPathLong], ¬ ∃ remainder,
      ((Dispatch.boot _).pouchDownlinkStart otaServices 1 path).2 =
        [.start componentService 1 remainder] ∧
      ParsesWithin otaDefaults 1 (path.chars.drop componentPrefix.length)
        ⟨downlinkIdInvalid, 0, [], []⟩
        (otaReceiveComponentStart otaDefaults 1 remainder ⟨downlinkIdInvalid, 0, [], []⟩) := by
  have hroute : ∀ path ∈ [componentPathEmpty, componentPathLong],
      matchingService otaServices path = some componentService := by
    simp only [List.forall_mem_cons]
    exact ⟨matchingService_component _, matchingService_component _, by simp⟩
  have hcalls : ∀ path ∈ [componentPathEmpty, componentPathLong],
      ((Dispatch.boot _).pouchDownlinkStart otaServices 1 path).2 =
        [.start componentService 1 (otaComponent.pathRemainder path)] := by
    intro path hpath
    simp only [Dispatch.pouchDownlinkStart, hroute path hpath]
    rfl
  refine ⟨by decide, by decide, hroute, rfl, rfl, ?_⟩
  rintro path hpath ⟨remainder, hstart, hparses⟩
  rw [hcalls path hpath] at hstart
  cases hstart
  simp only [List.mem_cons, List.not_mem_nil, or_false] at hpath
  cases hpath with
  | inl h => subst h; exact hparses
  | inr h => subst h; exact hparses

section
variable (cfg : OtaConfig) {components : List RegisteredComponent}

def KeepsTarget (component : GoliothOtaComponent) (data : RegisteredComponentData) : Prop :=
  data.target = component.version.chars ∧
    ∀ current : CString, current.chars = data.target ↔ current = component.version

theorem keepsTarget_iff (component : GoliothOtaComponent) (data : RegisteredComponentData) :
    KeepsTarget component data ↔ data.target = component.version.chars := by
  refine ⟨And.left, fun h => ⟨h, fun current => ?_⟩⟩
  rw [h]
  exact ⟨fun heq => by cases current; cases hv : component.version; simp_all, fun heq => heq ▸ rfl⟩

/-- The target of a registered component is the version of the manifest unaltered exactly if
that is shorter than the maximum: the array has no byte for the terminator of a longest one. -/
theorem target_kept_iff (component : GoliothOtaComponent) (s : Ota components.length)
    (i : Fin components.length) (hname : (components.get i).name = component.package) :
    KeepsTarget component ((goliothOtaManifestReceiveOne cfg component s).data i) ↔
      component.version.chars.length < cfg.maxVersionLen := by
  have hpos := cfg.maxVersionLen_pos
  have htarget : ((goliothOtaManifestReceiveOne cfg component s).data i).target =
      component.version.chars.take (cfg.maxVersionLen - 1) := by
    simp only [goliothOtaManifestReceiveOne, hname, if_true]
  rw [keepsTarget_iff, htarget, List.take_eq_self_iff]
  omega

end

def componentOfVersion (n : Nat) : GoliothOtaComponent where
  package := pathA
  version := ⟨List.replicate n 0x31, fun h => absurd (List.eq_of_mem_replicate h) (by decide)⟩
  hash := Vector.replicate 32 0
  size := 0

theorem target_of_short_version_kept :
    (oneComponent.get ⟨0, Nat.one_pos⟩).name = pathA ∧
    KeepsTarget (componentOfVersion 31) ((goliothOtaManifestReceiveOne otaDefaults
      (componentOfVersion 31) (Ota.boot otaDefaults oneComponent)).data ⟨0, Nat.one_pos⟩) :=
  ⟨rfl, (target_kept_iff otaDefaults (componentOfVersion 31) (Ota.boot otaDefaults oneComponent)
    ⟨0, Nat.one_pos⟩ rfl).mpr (by decide)⟩

/-- The last byte of a version of 32 is lost, and the component looks out of date for ever. -/
theorem target_of_longest_version_cut :
    (componentOfVersion 32).package.chars.length ≤ otaDefaults.maxPackageNameLen ∧
    (componentOfVersion 32).version.chars.length ≤ otaDefaults.maxVersionLen ∧
    (oneComponent.get ⟨0, Nat.one_pos⟩).name = (componentOfVersion 32).package ∧
    ((goliothOtaManifestReceiveOne otaDefaults (componentOfVersion 32)
      (Ota.boot otaDefaults oneComponent)).data ⟨0, Nat.one_pos⟩).target =
        List.replicate 31 0x31 ∧
    ¬ KeepsTarget (componentOfVersion 32) ((goliothOtaManifestReceiveOne otaDefaults
      (componentOfVersion 32) (Ota.boot otaDefaults oneComponent)).data ⟨0, Nat.one_pos⟩) := by
  refine ⟨by decide, by decide, rfl, rfl, fun h => ?_⟩
  exact absurd (congrArg List.length h.1) (by decide)

end Pouch
