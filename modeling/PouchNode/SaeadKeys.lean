import PouchNode.Replay

/-! The session keys that PSA holds. A session destroys its key when it ends, but a new
session is written over an old one without looking at it. -/
namespace Pouch
open Machine

inductive KeyOp where
  | saead (op : SaeadOp)
  | uplinkEnd
  | downlinkEnd

def keyStep (cfg : Config) (s : Saead) : KeyOp → Saead × Unit
  | .saead op => ((saeadStep cfg s op).1, ())
  | .uplinkEnd => (saeadUplinkSessionEnd s, ())
  | .downlinkEnd => (saeadDownlinkSessionEnd s, ())

abbrev keyFinal (cfg : Config) : Saead → List KeyOp → Saead := final (keyStep cfg)

def Session.Holds (session : Session) (key : PsaKeyId) : Prop :=
  session.flags.active = true ∧ session.key = key

structure KeysOwned (s : Saead) : Prop where
  owned : ∀ key ∈ s.psa.live, s.uplink.Holds key ∨ s.downlink.Holds key
  few : s.psa.live.length ≤ 2

/- A new session does not replace one that holds a key: a header that is accepted finds no
   downlink session active, and the uplink session is started only when it holds none. -/
def KeepsKeys (s : Saead) : KeyOp → Prop
  | .saead (.header (.saead session _) o) =>
    (∃ id, session.sessionId = some id ∧ isValidDownlink s id session.algorithm = true ∧
      id.initiator = .server ∧ o.derives = true) → s.downlink.flags.active = false
  | .saead (.uplinkStart _ _ _) => s.uplink.flags.active = true → s.uplink.key = psaKeyIdNull
  | _ => True

structure KeyInv (s : Saead) : Prop where
  saead : SaeadInv s
  nodup : s.psa.live.Nodup
  bound : ∀ key ∈ s.psa.live, key ≤ s.psa.next
  uplink_bound : s.uplink.key ≤ s.psa.next
  apart : s.uplink.key = s.downlink.key → s.uplink.key = psaKeyIdNull
  uplink_live : s.uplink.flags.active = true → s.uplink.key ≠ psaKeyIdNull →
    s.uplink.key ∈ s.psa.live
  downlink_live : s.downlink.flags.active = true → s.downlink.key ∈ s.psa.live

theorem keyInv_boot : KeyInv .boot where
  saead := saeadInv_boot
  nodup := List.nodup_nil
  bound := by simp [Saead.boot]
  uplink_bound := Nat.le_refl _
  apart _ := rfl
  uplink_live := by simp [Saead.boot, Session.boot, SessionFlags.init]
  downlink_live := by simp [Saead.boot, Session.boot, SessionFlags.init]

section
variable {s : Saead}

theorem saeadUplinkSessionEnd_cases (s : Saead) :
    (s.uplink.flags.active = false ∧ saeadUplinkSessionEnd s = s) ∨
    (s.uplink.flags.active = true ∧ saeadUplinkSessionEnd s = { s with
      uplink := { s.uplink with
        flags := { s.uplink.flags with active := false }, key := psaKeyIdNull }
      psa := psaDestroyKey s.psa s.uplink.key }) := by
  cases ha : s.uplink.flags.active with
  | false => exact Or.inl ⟨rfl, by simp [saeadUplinkSessionEnd, sessionEnd, ha]⟩
  | true => exact Or.inr ⟨rfl, by simp [saeadUplinkSessionEnd, sessionEnd, ha]⟩

theorem saeadDownlinkSessionEnd_cases (s : Saead) :
    (s.downlink.flags.active = false ∧ saeadDownlinkSessionEnd s = s) ∨
    (s.downlink.flags.active = true ∧ saeadDownlinkSessionEnd s = { s with
      downlink := { s.downlink with
        flags := { s.downlink.flags with active := false }, key := psaKeyIdNull }
      psa := psaDestroyKey s.psa s.downlink.key }) := by
  cases ha : s.downlink.flags.active with
  | false => exact Or.inl ⟨rfl, by simp [saeadDownlinkSessionEnd, sessionEnd, ha]⟩
  | true => exact Or.inr ⟨rfl, by simp [saeadDownlinkSessionEnd, sessionEnd, ha]⟩

/-- Everything a start of the uplink session can do: fail before the key derivation, or
replace the key by a new one or by none. -/
theorem uplinkStart_cases (rnd : RandomOutcome) (o : KeyOutcome) (algorithm : PsaAlgorithm)
    (s : Saead) :
    (∃ id, uplinkStart rnd o algorithm s =
      { s with uplink := { s.uplink with flags := .init, id } }) ∨
    (∃ id pouch, uplinkStart rnd o algorithm s =
      { s with uplink := ⟨id, ⟨true, true, false⟩, algorithm, psaKeyIdNull, pouch⟩ }) ∨
    ∃ id pouch, uplinkStart rnd o algorithm s = { s with
      uplink := ⟨id, ⟨true, true, false⟩, algorithm, s.psa.create.1, pouch⟩
      psa := s.psa.create.2 } := by
  cases hr : rnd.value with
  | none =>
    refine Or.inl ⟨⟨.device, .random s.uplink.id.value.bytes⟩, ?_⟩
    simp [uplinkStart, saeadUplinkSessionStart, sessionIdGenerate, hr]
  | some value =>
    cases ho : o.derives with
    | false =>
      refine Or.inr (Or.inl ⟨⟨.device, .random value⟩,
        { s.uplink.pouch with id := 1, blockIndex := 0 }, ?_⟩)
      simp [uplinkStart, saeadUplinkSessionStart, sessionIdGenerate, hr, saeadUplinkPouchStart,
        sessionPouchStart, sessionKeyGenerate_eq, ho]
    | true =>
      refine Or.inr (Or.inr ⟨⟨.device, .random value⟩,
        { s.uplink.pouch with id := 1, blockIndex := 0 }, ?_⟩)
      simp [uplinkStart, saeadUplinkSessionStart, sessionIdGenerate, hr, saeadUplinkPouchStart,
        sessionPouchStart, sessionKeyGenerate_eq, ho]

theorem KeyInv.ne_of_live (h : KeyInv s) (hlive : s.uplink.key ∈ s.psa.live) :
    s.uplink.key ≠ s.downlink.key := by
  intro he
  rw [h.apart he] at hlive
  exact h.saead.null_not_live hlive

theorem KeyInv.ne_of_downlink_live (h : KeyInv s) (hlive : s.downlink.key ∈ s.psa.live) :
    s.downlink.key ≠ s.uplink.key := by
  intro he
  exact h.ne_of_live (he ▸ hlive) he.symm

theorem KeyInv.uplinkEnd (h : KeyInv s) : KeyInv (saeadUplinkSessionEnd s) := by
  cases saeadUplinkSessionEnd_cases s with
  | inl hr => rwa [hr.2]
  | inr hr =>
    rw [hr.2]
    have hsub : s.psa.live.erase s.uplink.key ⊆ s.psa.live := List.erase_subset
    constructor
    · exact ⟨h.saead.uplink_random, fun hm => h.saead.null_not_live (hsub hm),
        h.saead.next_bound, fun hm => h.saead.key_server (hsub hm)⟩
    · exact h.nodup.erase _
    · exact fun key hkey => h.bound key (hsub hkey)
    · exact Nat.zero_le _
    · exact fun _ => rfl
    · exact fun ha => by cases ha
    · intro ha
      have hlive := h.downlink_live ha
      exact (List.mem_erase_of_ne (h.ne_of_downlink_live hlive)).mpr hlive

theorem KeyInv.downlinkEnd (h : KeyInv s) : KeyInv (saeadDownlinkSessionEnd s) := by
  cases saeadDownlinkSessionEnd_cases s with
  | inl hr => rwa [hr.2]
  | inr hr =>
    rw [hr.2]
    have hsub : s.psa.live.erase s.downlink.key ⊆ s.psa.live := List.erase_subset
    constructor
    · exact ⟨h.saead.uplink_random, fun hm => h.saead.null_not_live (hsub hm), Nat.zero_le _,
        fun hm => absurd (hsub hm) h.saead.null_not_live⟩
    · exact h.nodup.erase _
    · exact fun key hkey => h.bound key (hsub hkey)
    · exact h.uplink_bound
    · exact id
    · intro ha hne
      have hlive := h.uplink_live ha hne
      exact (List.mem_erase_of_ne (h.ne_of_live hlive)).mpr hlive
    · exact fun ha => by cases ha

theorem KeyInv.nodup_create (h : KeyInv s) : s.psa.create.2.live.Nodup := by
  apply List.nodup_cons.mpr
  constructor
  · intro hm
    exact Nat.not_succ_le_self _ (h.bound _ hm)
  · exact h.nodup

theorem KeyInv.bound_create (h : KeyInv s) :
    ∀ key ∈ s.psa.create.2.live, key ≤ s.psa.create.2.next := by
  intro key hkey
  cases List.mem_cons.mp hkey with
  | inl hnew => exact Nat.le_of_eq hnew
  | inr hold => exact Nat.le_succ_of_le (h.bound key hold)

theorem KeyInv.uplinkStart (cfg : Config) (h : KeyInv s) (rnd : RandomOutcome) (o : KeyOutcome)
    (algorithm : PsaAlgorithm) : KeyInv (uplinkStart rnd o algorithm s) := by
  have hsaead : SaeadInv (Pouch.uplinkStart rnd o algorithm s) :=
    saeadStep_inv cfg (.uplinkStart rnd o algorithm) h.saead
  obtain ⟨id, he⟩ | ⟨id, pouch, he⟩ | ⟨id, pouch, he⟩ := uplinkStart_cases rnd o algorithm s
  · rw [he] at hsaead ⊢
    exact ⟨hsaead, h.nodup, h.bound, h.uplink_bound, h.apart, (fun ha => by cases ha),
      h.downlink_live⟩
  · rw [he] at hsaead ⊢
    exact ⟨hsaead, h.nodup, h.bound, Nat.zero_le _, fun _ => rfl, fun _ hne => absurd rfl hne,
      h.downlink_live⟩
  · rw [he] at hsaead ⊢
    have hdown := h.saead.next_bound
    constructor
    · exact hsaead
    · exact h.nodup_create
    · exact h.bound_create
    · exact Nat.le_refl _
    · intro heq
      have hlt : s.downlink.key < s.psa.create.1 := Nat.lt_succ_of_le hdown
      exact absurd heq hlt.ne'
    · exact fun _ _ => List.mem_cons_self
    · exact fun ha => List.mem_cons_of_mem _ (h.downlink_live ha)

theorem KeyInv.accepted (h : KeyInv s) {id : SessionId} {algorithm : PsaAlgorithm}
    {pouchId : UInt16} {t : Saead} (ht : t = { s with
      psa := s.psa.create.2
      downlink := acceptedSession s.downlink id algorithm s.psa.create.1 pouchId })
    (hsaead : SaeadInv t) : KeyInv t := by
  subst ht
  constructor
  · exact hsaead
  · exact h.nodup_create
  · exact h.bound_create
  · exact Nat.le_succ_of_le h.uplink_bound
  · intro heq
    have hlt : s.uplink.key < s.psa.create.1 := Nat.lt_succ_of_le h.uplink_bound
    exact absurd heq hlt.ne
  · exact fun ha hne => List.mem_cons_of_mem _ (h.uplink_live ha hne)
  · exact fun _ => List.mem_cons_self

theorem keyStep_inv (cfg : Config) (op : KeyOp) (h : KeyInv s) : KeyInv (keyStep cfg s op).1 := by
  cases op with
  | uplinkEnd => exact h.uplinkEnd
  | downlinkEnd => exact h.downlinkEnd
  | saead op =>
    cases op with
    | header info o =>
      have hsaead : SaeadInv (saeadStep cfg s (.header info o)).1 := saeadStep_inv cfg _ h.saead
      cases cryptoDownlinkStart_cases cfg h.saead o info with
      | inl hr =>
        obtain ⟨e, he⟩ := hr
        simpa [keyStep, saeadStep, he] using h
      | inr hr =>
        obtain ⟨session, pouchId, id, -, -, -, -, -, he⟩ := hr
        exact h.accepted (congrArg Prod.snd he) hsaead
    | decrypt block o =>
      have hsaead : SaeadInv (saeadStep cfg s (.decrypt block o)).1 := saeadStep_inv cfg _ h.saead
      cases saeadDownlinkBlockDecrypt_cases cfg s o block with
      | inl hr => simpa [keyStep, saeadStep, hr] using h
      | inr hr =>
        obtain ⟨-, d, pouch, -, he⟩ := hr
        simp only [keyStep, saeadStep, he] at hsaead ⊢
        exact ⟨hsaead, h.nodup, h.bound, h.uplink_bound, h.apart, h.uplink_live, h.downlink_live⟩
    | sessionEnd => exact h.uplinkEnd.downlinkEnd
    | uplinkStart rnd o algorithm => exact h.uplinkStart cfg rnd o algorithm

/-- Two owners own at most two keys. -/
theorem KeyInv.keysOwned (h : KeyInv s)
    (howned : ∀ key ∈ s.psa.live, s.uplink.Holds key ∨ s.downlink.Holds key) : KeysOwned s := by
  refine ⟨howned, ?_⟩
  have hsub : s.psa.live ⊆ [s.uplink.key, s.downlink.key] := by
    intro key hkey
    cases howned key hkey with
    | inl hu => simp [hu.2]
    | inr hd => simp [hd.2]
  exact (List.subperm_of_subset h.nodup hsub).length_le

theorem KeysOwned.uplinkEnd (h : KeyInv s) (hown : KeysOwned s) :
    KeysOwned (saeadUplinkSessionEnd s) := by
  apply h.uplinkEnd.keysOwned
  cases saeadUplinkSessionEnd_cases s with
  | inl hr =>
    rw [hr.2]
    exact hown.owned
  | inr hr =>
    rw [hr.2]
    intro key hkey
    obtain ⟨hne, hlive⟩ := h.nodup.mem_erase_iff.mp hkey
    cases hown.owned key hlive with
    | inl hu => exact absurd hu.2.symm hne
    | inr hd => exact Or.inr hd

theorem KeysOwned.downlinkEnd (h : KeyInv s) (hown : KeysOwned s) :
    KeysOwned (saeadDownlinkSessionEnd s) := by
  apply h.downlinkEnd.keysOwned
  cases saeadDownlinkSessionEnd_cases s with
  | inl hr =>
    rw [hr.2]
    exact hown.owned
  | inr hr =>
    rw [hr.2]
    intro key hkey
    obtain ⟨hne, hlive⟩ := h.nodup.mem_erase_iff.mp hkey
    cases hown.owned key hlive with
    | inl hu => exact Or.inl hu
    | inr hd => exact absurd hd.2.symm hne

/-- A new key of the downlink session orphans the old one, if the session was active. -/
theorem keysOwned_accepted_iff (h : KeyInv s) (hown : KeysOwned s) {id : SessionId}
    {algorithm : PsaAlgorithm} {pouchId : UInt16} {t : Saead} (ht : t = { s with
      psa := s.psa.create.2
      downlink := acceptedSession s.downlink id algorithm s.psa.create.1 pouchId })
    (hinv : KeyInv t) : KeysOwned t ↔ s.downlink.flags.active = false := by
  subst ht
  constructor
  · intro hnext
    by_contra ha
    have hlive := h.downlink_live (by simpa using ha)
    cases hnext.owned _ (List.mem_cons_of_mem _ hlive) with
    | inl hu => exact h.ne_of_downlink_live hlive hu.2.symm
    | inr hd =>
      have hlt : s.downlink.key < s.psa.create.1 := Nat.lt_succ_of_le h.saead.next_bound
      exact absurd hd.2 hlt.ne'
  · intro ha
    apply hinv.keysOwned
    intro key hkey
    cases List.mem_cons.mp hkey with
    | inl hnew => exact Or.inr ⟨rfl, hnew.symm⟩
    | inr hold =>
      cases hown.owned key hold with
      | inl hu => exact Or.inl hu
      | inr hd =>
        have hactive := hd.1
        rw [ha] at hactive
        cases hactive

theorem keysOwned_uplinkStart_iff (cfg : Config) (h : KeyInv s) (hown : KeysOwned s)
    (rnd : RandomOutcome) (o : KeyOutcome) (algorithm : PsaAlgorithm) :
    KeysOwned (uplinkStart rnd o algorithm s) ↔
      (s.uplink.flags.active = true → s.uplink.key = psaKeyIdNull) := by
  have hinv := h.uplinkStart cfg rnd o algorithm
  constructor
  · intro hnext ha
    by_contra hne
    have hlive := h.uplink_live ha hne
    obtain ⟨id, he⟩ | ⟨id, pouch, he⟩ | ⟨id, pouch, he⟩ := uplinkStart_cases rnd o algorithm s
    · rw [he] at hnext
      cases hnext.owned _ hlive with
      | inl hu => cases hu.1
      | inr hd => exact h.ne_of_live hlive hd.2.symm
    · rw [he] at hnext
      cases hnext.owned _ hlive with
      | inl hu => exact hne hu.2.symm
      | inr hd => exact h.ne_of_live hlive hd.2.symm
    · rw [he] at hnext
      cases hnext.owned _ (List.mem_cons_of_mem _ hlive) with
      | inl hu =>
        have hlt : s.uplink.key < s.psa.create.1 := Nat.lt_succ_of_le h.uplink_bound
        exact absurd hu.2 hlt.ne'
      | inr hd => exact h.ne_of_live hlive hd.2.symm
  · intro hfree
    apply hinv.keysOwned
    have hold : ∀ key ∈ s.psa.live, s.downlink.Holds key := by
      intro key hkey
      cases hown.owned key hkey with
      | inl hu =>
        rw [← hu.2, hfree hu.1] at hkey
        exact absurd hkey h.saead.null_not_live
      | inr hd => exact hd
    obtain ⟨id, he⟩ | ⟨id, pouch, he⟩ | ⟨id, pouch, he⟩ := uplinkStart_cases rnd o algorithm s
    · rw [he]
      exact fun key hkey => Or.inr (hold key hkey)
    · rw [he]
      exact fun key hkey => Or.inr (hold key hkey)
    · rw [he]
      intro key hkey
      cases List.mem_cons.mp hkey with
      | inl hnew => exact Or.inl ⟨rfl, hnew.symm⟩
      | inr hlive => exact Or.inr (hold key hlive)

/-- A step keeps the keys in hand exactly if it replaces no session that holds one. -/
theorem keysOwned_step (cfg : Config) (op : KeyOp) (h : KeyInv s) (hown : KeysOwned s) :
    KeysOwned (keyStep cfg s op).1 ↔ KeepsKeys s op := by
  have hinv := keyStep_inv cfg op h
  cases op with
  | uplinkEnd => exact iff_of_true (hown.uplinkEnd h) trivial
  | downlinkEnd => exact iff_of_true (hown.downlinkEnd h) trivial
  | saead op =>
    cases op with
    | header info o =>
      cases info with
      | plaintext id => exact iff_of_true hown trivial
      | saead session pouchId =>
        simp only [KeepsKeys, ← cryptoDownlinkStart_ok_iff cfg h.saead o session pouchId]
        cases cryptoDownlinkStart_cases cfg h.saead o (.saead session pouchId) with
        | inl hr =>
          obtain ⟨e, he⟩ := hr
          exact iff_of_true (by simpa [keyStep, saeadStep, he] using hown) (by simp [he])
        | inr hr =>
          obtain ⟨session', pouchId', id, -, -, -, -, -, he⟩ := hr
          have hnext := keysOwned_accepted_iff h hown (congrArg Prod.snd he) hinv
          have hok : (cryptoDownlinkStart cfg o s (.saead session pouchId)).1 = .ok :=
            congrArg Prod.fst he
          exact hnext.trans ⟨fun ha _ => ha, fun ha => ha hok⟩
    | decrypt block o =>
      refine iff_of_true ?_ trivial
      cases saeadDownlinkBlockDecrypt_cases cfg s o block with
      | inl hr => simpa [keyStep, saeadStep, hr] using hown
      | inr hr =>
        obtain ⟨-, d, pouch, -, he⟩ := hr
        simp only [keyStep, saeadStep, he]
        exact ⟨hown.owned, hown.few⟩
    | sessionEnd => exact iff_of_true ((hown.uplinkEnd h).downlinkEnd h.uplinkEnd) trivial
    | uplinkStart rnd o algorithm => exact keysOwned_uplinkStart_iff cfg h hown rnd o algorithm

end

/-- In every state of a run each key in PSA is that of an active session, and there are at
most two, exactly if no step of the run replaces a session that holds a key. -/
theorem session_keys_owned_iff (cfg : Config) (ops : List KeyOp) :
    (∀ u v, ops = u++v → KeysOwned (keyFinal cfg .boot u)) ↔
      ∀ u op v, ops = u++op :: v → KeepsKeys (keyFinal cfg .boot u) op :=
  throughout_iff (keyStep cfg) (I := KeyInv) (P := KeysOwned) (A := fun _ _ => True)
    (fun _ op _ h => keyStep_inv cfg op h) (fun _ op _ h hown => keysOwned_step cfg op h hown)
    .boot keyInv_boot ⟨by simp [Saead.boot], by simp [Saead.boot]⟩ ops (fun _ _ _ _ => trivial)

/-- The headers of two pouches in a row: the key of the first is left behind. -/
theorem second_header_orphans_key :
    ¬ KeysOwned (keyFinal saeadConfig .boot
      [.saead (serverHeader serverRandom 3), .saead (serverHeader serverRandom 4)]) := by
  intro h
  have hlive : (keyFinal saeadConfig .boot
      [.saead (serverHeader serverRandom 3), .saead (serverHeader serverRandom 4)]).psa.live =
      [2, 1] := rfl
  cases h.owned 1 (by rw [hlive]; decide) with
  | inl hu => exact absurd hu.1 (by decide)
  | inr hd => exact absurd hd.2 (by decide)

end Pouch
