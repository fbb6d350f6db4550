import PouchNode.Dispatch

/-! Which service a path is dispatched to. The comparison stops at the end of the pattern,
whether or not the pattern ends with a star. -/
namespace Pouch

namespace GoliothDownlinkService

def Accepts (service : GoliothDownlinkService) (path : CString) : Prop :=
  if service.isPartial then service.path.chars.dropLast <+: path.chars
  else service.path.chars = path.chars

def Overrun (service : GoliothDownlinkService) (path : CString) : Prop :=
  service.isPartial = false ∧ service.path.chars <+: path.chars ∧
    service.path.chars ≠ path.chars

instance (service : GoliothDownlinkService) (path : CString) : Decidable (service.Accepts path) :=
  inferInstanceAs (Decidable (if service.isPartial then
    service.path.chars.dropLast <+: path.chars else service.path.chars = path.chars))

def rest (service : GoliothDownlinkService) (path : CString) : Buf :=
  if service.isPartial then path.chars.drop service.path.chars.dropLast.length
  else path.chars.drop service.path.chars.length

theorem take_eq_take_iff (pattern path : Buf) (n : Nat) (h : n ≤ pattern.length) :
    pattern.take n = path.take n ↔ pattern.take n <+: path := by
  rw [List.prefix_iff_eq_take, List.length_take, Nat.min_eq_left h]

theorem isMatch_iff (service : GoliothDownlinkService) (path : CString) :
    service.isMatch path = true ↔ service.Accepts path ∨ service.Overrun path := by
  have hcompare : service.isMatch path = true ↔
      service.path.chars.take service.pathLen <+: path.chars := by
    rw [isMatch, decide_eq_true_eq, take_eq_take_iff]
    unfold pathLen strlen
    split <;> omega
  rw [hcompare]
  cases hpartial : service.isPartial with
  | true =>
    have hlen : service.pathLen = service.path.chars.length - 1 := by
      simp [pathLen, hpartial, strlen]
    simp only [Accepts, Overrun, hpartial, if_true, Bool.true_eq_false, false_and, or_false, hlen,
      List.dropLast_eq_take]
  | false =>
    have hlen : service.pathLen = service.path.chars.length := by
      simp [pathLen, hpartial, strlen]
    simp only [Accepts, Overrun, hpartial, Bool.false_eq_true, if_false, true_and, hlen,
      List.take_length]
    constructor
    · intro h
      by_cases heq : service.path.chars = path.chars
      · exact Or.inl heq
      · exact Or.inr ⟨h, heq⟩
    · rintro (heq | h)
      · rw [heq]
      · exact h.1

theorem not_accepts_of_overrun {service : GoliothDownlinkService} {path : CString}
    (h : service.Overrun path) : ¬ service.Accepts path := by
  unfold Accepts
  rw [h.1]
  exact h.2.2

theorem pathRemainder_rest (service : GoliothDownlinkService) (path : CString)
    (h : service.Accepts path) : (service.pathRemainder path).getD [] = service.rest path := by
  cases hpartial : service.isPartial with
  | true =>
    have hlen : service.pathLen = service.path.chars.dropLast.length := by
      simp [pathLen, hpartial, strlen]
    simp only [pathRemainder, rest, hpartial, if_true, Bool.true_and, hlen, decide_eq_true_eq]
    split
    · rfl
    · next hempty => exact (List.length_eq_zero_iff.mp (Nat.eq_zero_of_not_pos hempty)).symm
  | false =>
    simp only [Accepts, hpartial, Bool.false_eq_true, if_false] at h
    simp [pathRemainder, rest, hpartial, h]

end GoliothDownlinkService

section
variable {services : List GoliothDownlinkService} {path : CString}

def FirstAccepting (services : List GoliothDownlinkService) (path : CString) :
    Option (Fin services.length) → Prop
  | none => ∀ i, ¬ (services.get i).Accepts path
  | some i => (services.get i).Accepts path ∧ ∀ j < i, ¬ (services.get j).Accepts path

def StartsFirstAccepting (services : List GoliothDownlinkService) (path : CString)
    (streamId : UInt32) (d : Dispatch services.length) : Prop :=
  (FirstAccepting services path none ∧ d.pouchDownlinkStart services streamId path = (d, [])) ∨
  ∃ service remainder, FirstAccepting services path (some service) ∧
    Option.getD remainder [] = (services.get service).rest path ∧
    d.pouchDownlinkStart services streamId path =
      (⟨some service, Function.update d.downlinkId service streamId⟩,
        if (services.get service).hasStartCb then [.start service streamId remainder] else [])

/-- The first match is the first that accepts, if every overrun comes too late. -/
theorem firstAccepting_matchingService
    (h : ∀ i, (services.get i).Overrun path → ∃ j < i, (services.get j).Accepts path) :
    FirstAccepting services path (matchingService services path) := by
  cases hmatch : matchingService services path with
  | none =>
    intro i haccepts
    have hnone := Fin.find?_eq_none_iff.mp hmatch i
    rw [(GoliothDownlinkService.isMatch_iff _ _).mpr (Or.inl haccepts)] at hnone
    cases hnone
  | some m =>
    obtain ⟨hm, hbefore⟩ := Fin.find?_eq_some_iff.mp hmatch
    have hnone : ∀ j < m, ¬ (services.get j).Accepts path := by
      intro j hj haccepts
      have hfalse := hbefore j hj
      rw [(GoliothDownlinkService.isMatch_iff _ _).mpr (Or.inl haccepts)] at hfalse
      cases hfalse
    refine ⟨?_, hnone⟩
    cases (GoliothDownlinkService.isMatch_iff _ _).mp hm with
    | inl haccepts => exact haccepts
    | inr hoverrun =>
      obtain ⟨j, hj, haccepts⟩ := h m hoverrun
      exact absurd haccepts (hnone j hj)

/-- A path is dispatched as the patterns say exactly if every pattern without a star that the
path goes on after comes behind one that accepts the path. -/
theorem dispatch_selects_first_accepting_iff (services : List GoliothDownlinkService)
    (path : CString) :
    (∀ streamId d, StartsFirstAccepting services path streamId d) ↔
      ∀ i, (services.get i).Overrun path → ∃ j < i, (services.get j).Accepts path := by
  constructor
  · intro h i hoverrun
    obtain ⟨m, hmatch⟩ : ∃ m, matchingService services path = some m := by
      cases hmatch : matchingService services path with
      | some m => exact ⟨m, rfl⟩
      | none =>
        have hnone := Fin.find?_eq_none_iff.mp hmatch i
        rw [(GoliothDownlinkService.isMatch_iff _ _).mpr (Or.inr hoverrun)] at hnone
        cases hnone
    have hle : m ≤ i := by
      by_contra hlt
      have hfalse := (Fin.find?_eq_some_iff.mp hmatch).2 i (not_le.mp hlt)
      rw [(GoliothDownlinkService.isMatch_iff _ _).mpr (Or.inr hoverrun)] at hfalse
      cases hfalse
    -- after boot no service has been seen, so the selection shows
    cases h 0 (Dispatch.boot _) with
    | inl hnone =>
      obtain ⟨-, hstart⟩ := hnone
      simp only [Dispatch.pouchDownlinkStart, hmatch, Dispatch.boot, Prod.mk.injEq,
        Dispatch.mk.injEq, reduceCtorEq, false_and] at hstart
    | inr hsome =>
      obtain ⟨service, remainder, hfirst, -, hstart⟩ := hsome
      simp only [Dispatch.pouchDownlinkStart, hmatch, Prod.mk.injEq, Dispatch.mk.injEq,
        Option.some.injEq] at hstart
      obtain rfl : m = service := hstart.1.1
      refine ⟨m, lt_of_le_of_ne hle fun heq => ?_, hfirst.1⟩
      exact GoliothDownlinkService.not_accepts_of_overrun (heq ▸ hoverrun) hfirst.1
  · intro h streamId d
    have hfirst := firstAccepting_matchingService h
    cases hmatch : matchingService services path with
    | none =>
      rw [hmatch] at hfirst
      exact Or.inl ⟨hfirst, by simp [Dispatch.pouchDownlinkStart, hmatch]⟩
    | some service =>
      rw [hmatch] at hfirst
      exact Or.inr ⟨service, _, hfirst,
        GoliothDownlinkService.pathRemainder_rest _ path hfirst.1, by
          simp only [Dispatch.pouchDownlinkStart, hmatch]⟩

end

def settingsPath : CString := ⟨[0x2F, 0x2E, 0x63], by decide⟩
def settingsServices : List GoliothDownlinkService := [⟨settingsPath, by decide, false⟩]
def settingsOverrun : CString := ⟨[0x2F, 0x2E, 0x63, 0x78], by decide⟩

/-- The service is selected though its path is another one. -/
theorem settings_selected_for_longer_path :
    (Dispatch.boot _).pouchDownlinkStart settingsServices 1 settingsOverrun =
      (⟨some ⟨0, Nat.one_pos⟩, Function.update (fun _ => downlinkIdInvalid) ⟨0, Nat.one_pos⟩ 1⟩,
        []) ∧
    ¬ ∀ streamId d, StartsFirstAccepting settingsServices settingsOverrun streamId d := by
  refine ⟨rfl, fun h => ?_⟩
  have hnone : ∀ service, ¬ (settingsServices.get service).Accepts settingsOverrun := by decide
  rcases h 1 (Dispatch.boot _) with ⟨-, hstart⟩ | ⟨service, remainder, hfirst, -⟩
  · cases congrArg (fun r => r.1.lastSeen) hstart
  · exact hnone service hfirst.1

end Pouch
