import PouchNode.Lib.Chunks
import PouchNode.Nonce
import PouchNode.StreamRun
import PouchNode.UplinkSession

/-! The uplink under SAEAD, with every answer of the allocator and of PSA given in advance.
A block that cannot be encrypted is freed and the next one is tried, so a stream gets
through without holes only as long as nothing fails before one of its later blocks. -/
namespace Pouch
open Machine Octets

section
variable {κ : Type*} {cfg : Config} (crypto : CryptoOps cfg κ)

def takenResults (tr : List (UplinkEvent κ)) : List (Buf × Option Buf) :=
  tr.flatMap fun e => e.output.taken

theorem takenResults_map_fst (tr : List (UplinkEvent κ)) :
    (takenResults tr).map Prod.fst = takenBlocks tr := List.map_flatMap

def encryptResults : κ → List Buf → List (Buf × Option Buf)
  | _, [] => []
  | k, block :: blocks =>
    (block, (crypto.encryptBlock k block).1) ::
      encryptResults (crypto.encryptBlock k block).2 blocks

theorem processLoop_results (queue : BufQueue) (header : Option Buf) (transport : BufQueue)
    (k : κ) : (processLoop crypto queue header transport k).2 = encryptResults crypto k queue := by
  induction queue generalizing header transport k with
  | nil => rfl
  | cons block queue ih =>
    cases he : crypto.encryptBlock k block with
    | mk encrypted k' =>
      cases encrypted with
      | none => simp [processLoop, encryptResults, he, ih]
      | some c => simp [processLoop, encryptResults, he, ih]

end

structure SaeadEnv (cfg : Config) where
  start : Nat → RandomOutcome × KeyOutcome
  algorithm : PsaAlgorithm
  header : Nat → Option Buf
  header_lt : ∀ n h, header n = some h → h.length < 2^cfg.sizeBits
  alloc : Nat → Bool
  answer : Nat → Option Buf

structure SaeadCrypto where
  saead : Saead
  starts : Nat
  blocks : Nat

def SaeadCrypto.boot : SaeadCrypto := ⟨.boot, 0, 0⟩

section
variable {cfg : Config} (env : SaeadEnv cfg)

def SaeadEnv.call (psa : Psa) (n : Nat) (block : Buf) : EncryptCall :=
  ⟨block, psa, env.alloc n, env.answer n⟩

def saeadEncrypt (k : SaeadCrypto) (block : Buf) : Option Buf × SaeadCrypto :=
  let (encrypted, saead) :=
    saeadUplinkEncryptBlock cfg (env.call k.saead.psa k.blocks block).outcome k.saead block
  (encrypted, { k with saead, blocks := k.blocks + 1 })

theorem sessionEncryptBlock_encryptStep (cfg : Config) (session : Session) (c : EncryptCall) :
    (sessionEncryptBlock cfg c.outcome c.psa session c.block).1.isSome =
      (encryptStep cfg session c).2.isSome ∧
    (sessionEncryptBlock cfg c.outcome c.psa session c.block).2 = (encryptStep cfg session c).1 := by
  cases h : sessionEncryptBlock cfg c.outcome c.psa session c.block with
  | mk encrypted after =>
    cases encrypted with
    | none => simp [encryptStep, h]
    | some b => simp [encryptStep, h]

/-- Everything one encryption during a session can do. -/
theorem saeadEncrypt_cases (k : SaeadCrypto) (block : Buf)
    (ha : k.saead.uplink.flags.active = true) :
    ((saeadEncrypt env k block).1.isSome = true ↔
      (env.call k.saead.psa k.blocks block).Seals cfg k.saead.uplink.key) ∧
    (saeadEncrypt env k block).2.saead.uplink.flags.active = true ∧
    (saeadEncrypt env k block).2.saead.uplink.key = k.saead.uplink.key ∧
    (saeadEncrypt env k block).2.saead.psa = k.saead.psa ∧
    (saeadEncrypt env k block).2.blocks = k.blocks + 1 := by
  let c := env.call k.saead.psa k.blocks block
  obtain ⟨hsome, hafter⟩ := sessionEncryptBlock_encryptStep cfg k.saead.uplink c
  have hresult : (saeadEncrypt env k block).1.isSome =
      (encryptStep cfg k.saead.uplink c).2.isSome := by
    rw [← hsome]
    simp [saeadEncrypt, saeadUplinkEncryptBlock, ha, c, SaeadEnv.call]
  have hstate : (saeadEncrypt env k block).2 = { k with
      saead := { k.saead with uplink := (encryptStep cfg k.saead.uplink c).1 }
      blocks := k.blocks + 1 } := by
    rw [← hafter]
    simp [saeadEncrypt, saeadUplinkEncryptBlock, ha, c, SaeadEnv.call]
  rw [hresult, hstate]
  cases encryptStep_cases cfg k.saead.uplink c with
  | inl hr => exact ⟨by simp [hr.2, hr.1, c], by simp [hr.2, ha], by simp [hr.2], rfl, rfl⟩
  | inr hr =>
    obtain ⟨hseals, ad, he⟩ := hr
    exact ⟨by simp [he, hseals, c], by simp [he, ha], by simp [he], rfl, rfl⟩

theorem sessionEncryptBlock_length {o : BlockOutcome} {psa : Psa} {session : Session}
    {block c : Buf} (h : (sessionEncryptBlock cfg o psa session block).1 = some c) :
    c.length = getBe16 block + authTagLen + 2 := by
  simp only [sessionEncryptBlock] at h
  split at h
  · cases h
  split at h
  · cases h
  split at h
  · cases h
  split at h
  · cases h
  next hlength =>
    cases h
    rw [not_not] at hlength
    rw [List.length_append, hlength]
    exact Nat.add_comm _ _

theorem saeadEncrypt_length (k : SaeadCrypto) (block c : Buf)
    (h : (saeadEncrypt env k block).1 = some c) : c.length < 2^cfg.sizeBits := by
  have hbits := cfg.two_pow_le_sizeBits
  have hsize := getBe16_lt block
  cases ha : k.saead.uplink.flags.active with
  | false => simp [saeadEncrypt, saeadUplinkEncryptBlock, ha] at h
  | true =>
    simp only [saeadEncrypt, saeadUplinkEncryptBlock, ha, if_true] at h
    rw [sessionEncryptBlock_length h, authTagLen]
    omega

def saeadCrypto : CryptoOps cfg SaeadCrypto where
  sessionStart k :=
    let (rnd, o) := env.start k.starts
    let (ret, saead) := saeadUplinkSessionStart rnd o env.algorithm k.saead
    (ret, { k with saead, starts := k.starts + 1 })
  pouchStart k :=
    let (ret, saead) := saeadUplinkPouchStart k.saead
    (ret, { k with saead })
  -- saead_uplink_header_get refuses outside a session
  headerCreate k := (if k.saead.uplink.flags.active then env.header k.starts else none, k)
  encryptBlock k block := saeadEncrypt env k block
  sessionEnd k := { k with saead := cryptoSessionEnd k.saead }
  header_lt := by
    intro k h hh
    dsimp only at hh
    split at hh
    · exact env.header_lt _ h hh
    · cases hh
  encrypt_lt := saeadEncrypt_length env

def Judged (key : PsaKeyId) (psa : Psa) (n : Nat) (results : List (Buf × Option Buf)) : Prop :=
  ∀ i b r, results[i]? = some (b, r) →
    (r.isSome = true ↔ (env.call psa (n + i) b).Seals cfg key)

theorem Judged.append {key : PsaKeyId} {psa : Psa} {n : Nat} {rs ts : List (Buf × Option Buf)}
    (hr : Judged env key psa n rs) (ht : Judged env key psa (n + rs.length) ts) :
    Judged env key psa n (rs++ts) := by
  intro i b r hi
  by_cases hlt : i < rs.length
  · rw [List.getElem?_append_left hlt] at hi
    exact hr i b r hi
  · rw [List.getElem?_append_right (by omega)] at hi
    have h := ht _ b r hi
    rwa [Nat.add_assoc, Nat.add_sub_cancel' (by omega)] at h

theorem judged_one {key : PsaKeyId} {psa : Psa} {n : Nat} {b : Buf} {r : Option Buf}
    (h : r.isSome = true ↔ (env.call psa n b).Seals cfg key) : Judged env key psa n [(b, r)] := by
  intro i b' r' hi
  cases i with
  | zero =>
    cases hi
    exact h
  | succ i => simp at hi

theorem encryptResults_judged (queue : BufQueue) (k : SaeadCrypto)
    (ha : k.saead.uplink.flags.active = true) :
    Judged env k.saead.uplink.key k.saead.psa k.blocks
      (encryptResults (saeadCrypto env) k queue) ∧
    (encryptBlocks (saeadCrypto env) k queue).2.saead.uplink.flags.active = true ∧
    (encryptBlocks (saeadCrypto env) k queue).2.saead.uplink.key = k.saead.uplink.key ∧
    (encryptBlocks (saeadCrypto env) k queue).2.saead.psa = k.saead.psa := by
  induction queue generalizing k with
  | nil => exact ⟨by simp [Judged, encryptResults], ha, rfl, rfl⟩
  | cons block queue ih =>
    obtain ⟨hseals, ha', hkey, hpsa, hblocks⟩ := saeadEncrypt_cases env k block ha
    obtain ⟨hrest, hstate⟩ := ih (saeadEncrypt env k block).2 ha'
    rw [hkey, hpsa, hblocks] at hrest
    rw [hkey, hpsa] at hstate
    exact ⟨(judged_one env hseals).append env hrest, hstate⟩

theorem saeadUplinkSessionStart_active {rnd : RandomOutcome} {o : KeyOutcome}
    {algorithm : PsaAlgorithm} {s t : Saead}
    (h : saeadUplinkSessionStart rnd o algorithm s = (.ok, t)) : t.uplink.flags.active = true := by
  simp only [saeadUplinkSessionStart] at h
  split at h
  · cases h
  · cases h
    rfl

theorem saeadUplinkPouchStart_flags (s : Saead) :
    (saeadUplinkPouchStart s).2.uplink.flags = s.uplink.flags := by
  simp only [saeadUplinkPouchStart, sessionPouchStart]
  split <;> rfl

theorem started_active {s : Uplink SaeadCrypto}
    (h : (uplinkStep (saeadCrypto env) s .start).2.started = true) :
    (uplinkStep (saeadCrypto env) s .start).1.crypto.saead.uplink.flags.active = true := by
  cases uplinkStep_start (saeadCrypto env) s with
  | busy active result => simp [result] at h
  | failed inactive result => simp [result] at h
  | begun inactive result H k1 k2 k3 session pouch made same =>
    rw [same]
    simp only [saeadCrypto, Prod.mk.injEq] at session pouch made
    have hactive := saeadUplinkSessionStart_active (Prod.ext session.1 rfl)
    have hflags := saeadUplinkPouchStart_flags k1.saead
    rw [← made.2, ← pouch.2]
    dsimp only
    rw [hflags, ← session.2]
    exact hactive

theorem encryptBlocks_blocks (k : SaeadCrypto) (blocks : List Buf) :
    (encryptBlocks (saeadCrypto env) k blocks).2.blocks = k.blocks + blocks.length := by
  induction blocks generalizing k with
  | nil => rfl
  | cons b blocks ih =>
    have h := ih (saeadEncrypt env k b).2
    rw [List.length_cons, Nat.add_comm blocks.length, ← Nat.add_assoc]
    exact h

theorem saead_step_blocks (s : Uplink SaeadCrypto) (op : UplinkOp) :
    (uplinkStep (saeadCrypto env) s op).1.crypto.blocks =
      s.crypto.blocks + (uplinkStep (saeadCrypto env) s op).2.taken.length := by
  by_cases hop : op = .start
  · subst hop
    cases uplinkStep_start (saeadCrypto env) s with
    | busy active result same => rw [same]; rfl
    | failed inactive result header k same state =>
      rw [same]
      cases state with
      | inl hsession => rw [hsession]; rfl
      | inr hr =>
        cases hr with
        | inl hpouch => rw [hpouch]; rfl
        | inr hheader => rw [hheader]; rfl
    | begun inactive result H k1 k2 k3 session pouch made same =>
      have h1 : k1.blocks = s.crypto.blocks := congrArg (fun r => r.2.blocks) session.symm
      have h2 : k2.blocks = k1.blocks := congrArg (fun r => r.2.blocks) pouch.symm
      have h3 : k3.blocks = k2.blocks := congrArg (fun r => r.2.blocks) made.symm
      rw [same]
      exact h3.trans (h2.trans h1)
  cases uplinkStep_cases (saeadCrypto env) s op hop with
  | quiet same taken => rw [same.crypto, taken]; rfl
  | processed active blocks state same taken =>
    have hlength := congrArg List.length
      (processLoop_spec (saeadCrypto env) blocks s.header s.transport s.crypto).2.1
    rw [List.length_map] at hlength
    rw [state.2.2, encryptBlocks_blocks, taken, hlength]
  | refused inactive same taken => rw [same, taken]; rfl
  | filled maxlen result bytes fill =>
    rw [fill.taken]
    cases fill.ends with
    | inl more => rw [more.2.2]; rfl
    | inr done => rw [done.2.2.2.2]; rfl
  | finished inactive header transport reader taken filled state =>
    rw [taken]
    cases state with
    | inl same => rw [same]; rfl
    | inr ended => rw [ended]; rfl

def InSession (key : PsaKeyId) (psa : Psa) (s : Uplink SaeadCrypto) : Prop :=
  s.sessionActive = true → s.crypto.saead.uplink.flags.active = true ∧
    s.crypto.saead.uplink.key = key ∧ s.crypto.saead.psa = psa

theorem InSession.step {key : PsaKeyId} {psa : Psa} {s : Uplink SaeadCrypto}
    (h : InSession key psa s) (op : UplinkOp)
    (hop : (uplinkStep (saeadCrypto env) s op).2.started = false) :
    InSession key psa (uplinkStep (saeadCrypto env) s op).1 ∧
    Judged env key psa s.crypto.blocks (uplinkStep (saeadCrypto env) s op).2.taken := by
  have hnone : Judged env key psa s.crypto.blocks [] := by simp [Judged]
  by_cases hs : op = .start
  · subst hs
    refine ⟨?_, hnone⟩
    cases uplinkStep_start (saeadCrypto env) s with
    | busy active result same =>
      rw [same]
      exact h
    | failed inactive result header k same =>
      intro ha
      simp [same, inactive] at ha
    | begun inactive result => simp [result] at hop
  cases uplinkStep_cases (saeadCrypto env) s op hs with
  | quiet same taken =>
    rw [taken]
    refine ⟨?_, hnone⟩
    rw [InSession, same.sessionActive, same.crypto]
    exact h
  | processed active blocks state same taken =>
    obtain ⟨hactive, hkey, hpsa⟩ := h active
    obtain ⟨hjudged, hstate⟩ := encryptResults_judged env blocks s.crypto hactive
    rw [hkey, hpsa] at hjudged hstate
    rw [taken, processLoop_results, InSession, state.2.2]
    exact ⟨fun _ => hstate, hjudged⟩
  | refused inactive same taken =>
    rw [same, taken]
    exact ⟨h, hnone⟩
  | filled maxlen result bytes fill =>
    rw [fill.taken]
    refine ⟨fun ha => ?_, hnone⟩
    cases fill.ends with
    | inl more =>
      rw [more.2.2]
      exact h fill.active
    | inr done => simp [done.2.1] at ha
  | finished inactive header transport reader taken =>
    rw [taken]
    exact ⟨fun ha => by simp [inactive] at ha, hnone⟩

/-- From its start until the next session starts, exactly the blocks that can be sealed are
sent. -/
theorem session_judged {key : PsaKeyId} {psa : Psa} {s : Uplink SaeadCrypto}
    (h : InSession key psa s) (ops : List UplinkOp)
    (hops : ∀ e ∈ uplinkTrace (saeadCrypto env) s ops, e.output.started = false) :
    Judged env key psa s.crypto.blocks (takenResults (uplinkTrace (saeadCrypto env) s ops)) := by
  induction ops generalizing s with
  | nil => simp [Judged, takenResults]
  | cons op ops ih =>
    rw [uplinkTrace, trace_cons, List.forall_mem_cons] at hops
    obtain ⟨hsession, hjudged⟩ := h.step env op hops.1
    have hrest := ih hsession hops.2
    rw [saead_step_blocks] at hrest
    exact hjudged.append env hrest

theorem saead_run_blocks (ops : List UplinkOp) :
    (uplinkFinal (saeadCrypto env) (.boot .boot) ops).crypto.blocks =
      (takenBlocks (uplinkTrace (saeadCrypto env) (.boot .boot) ops)).length := by
  refine trace_invariant (uplinkStep (saeadCrypto env)) (A := fun _ => True)
    (P := fun tr s => s.crypto.blocks = (takenBlocks tr).length) _ rfl ?_ ops (fun _ _ => trivial)
  intro tr s op _ h
  rw [saead_step_blocks, h, takenBlocks_snoc, List.length_append, List.length_map]
  rfl

end

def UplinkOp.stream : UplinkOp → Option Nat
  | .write op => op.target
  | _ => none

section
variable {κ : Type*}

/- The blocks of one stream in the order they were enqueued, each with the number of blocks
   enqueued before it, of whatever kind. -/
def streamBlocks (handle : Nat) (tr : List (UplinkEvent κ)) : List (Nat × Buf) :=
  ((tr.flatMap fun e => e.output.enqueued.map fun b => (e.input.stream, b)).zipIdx.filter
    fun p => decide (p.1.1 = some handle)).map fun p => (p.2, p.1.2)

/- The block with this number is one of those taken in a session, after the first ones
   were taken before it, and it got into the transport queue. -/
def sentIn (first : Nat) (results : List (Buf × Option Buf)) (p : Nat × Buf) : Bool :=
  decide (first ≤ p.1) && (results[p.1 - first]?.bind Prod.snd).isSome

theorem mem_streamBlocks {handle : Nat} {tr : List (UplinkEvent κ)} {p : Nat × Buf}
    (h : p ∈ streamBlocks handle tr) : (enqueuedInRun tr)[p.1]? = some p.2 := by
  simp only [streamBlocks, List.mem_map, List.mem_filter] at h
  obtain ⟨q, ⟨hq, -⟩, rfl⟩ := h
  have hget := List.mem_zipIdx_iff_getElem?.mp hq
  have hblocks : enqueuedInRun tr =
      (tr.flatMap fun e => e.output.enqueued.map fun b => (e.input.stream, b)).map Prod.snd := by
    simp [enqueuedInRun, List.map_flatMap]
  rw [hblocks, List.getElem?_map, hget]
  rfl

end
section
variable {cfg : Config} (env : SaeadEnv cfg) (pre mid : List UplinkOp)

def sessionStarted : Uplink SaeadCrypto :=
  uplinkFinal (saeadCrypto env) (.boot .boot) (pre++[.start])
def sessionTrace : List (UplinkEvent SaeadCrypto) :=
  uplinkTrace (saeadCrypto env) (sessionStarted env pre) mid
def takenBefore : Nat :=
  (takenBlocks (uplinkTrace (saeadCrypto env) (.boot .boot) (pre++[.start]))).length
def sessionRun : List (UplinkEvent SaeadCrypto) :=
  uplinkTrace (saeadCrypto env) (.boot .boot) (pre++.start :: mid)

def NoHoles (handle : Nat) : Prop :=
  (streamBlocks handle (sessionRun env pre mid)).filter
      (sentIn (takenBefore env pre) (takenResults (sessionTrace env pre mid))) <+:
    streamBlocks handle (sessionRun env pre mid)

/- The block is taken in the session, and there is all it needs to be encrypted: memory, a
   key, a size field that fits it, and an answer of PSA with as many bytes and a tag. -/
def SealedInSession (p : Nat × Buf) : Prop :=
  takenBefore env pre ≤ p.1 ∧
  p.1 < takenBefore env pre + (takenBlocks (sessionTrace env pre mid)).length ∧
  (env.call (sessionStarted env pre).crypto.saead.psa p.1 p.2).Seals cfg
    (sessionStarted env pre).crypto.saead.uplink.key

instance (p : Nat × Buf) : Decidable (SealedInSession env pre mid p) :=
  inferInstanceAs (Decidable (_ ∧ _ ∧ _))

theorem sessionRun_taken : takenBlocks (sessionRun env pre mid) =
    takenBlocks (uplinkTrace (saeadCrypto env) (.boot .boot) (pre++[.start]))++
      takenBlocks (sessionTrace env pre mid) := by
  have hsplit : pre++.start :: mid = (pre++[.start])++mid := by simp
  rw [sessionRun, hsplit, uplinkTrace, trace_append, takenBlocks, List.flatMap_append]
  rfl

variable {env pre mid}

theorem taken_block {p : Nat × Buf} {b : Buf} {r : Option Buf}
    (hp : (enqueuedInRun (sessionRun env pre mid))[p.1]? = some p.2)
    (hlow : takenBefore env pre ≤ p.1)
    (hr : (takenResults (sessionTrace env pre mid))[p.1 - takenBefore env pre]? = some (b, r)) :
    b = p.2 := by
  have hb : (takenBlocks (sessionTrace env pre mid))[p.1 - takenBefore env pre]? = some b := by
    rw [← takenResults_map_fst, List.getElem?_map, hr]
    rfl
  have hlt := (List.getElem?_eq_some_iff.mp hb).1
  rw [sessionRun, ← taken_append_queue, ← sessionRun, sessionRun_taken, List.append_assoc,
    List.getElem?_append_right hlow, ← takenBefore, List.getElem?_append_left hlt, hb] at hp
  exact Option.some.inj hp

/-- What counts as sent has been taken by a run of process_blocks in the session, which has
submitted what it was encrypted to. -/
theorem sentIn_submits {handle : Nat} {p : Nat × Buf}
    (hp : p ∈ streamBlocks handle (sessionRun env pre mid))
    (h : sentIn (takenBefore env pre) (takenResults (sessionTrace env pre mid)) p = true) :
    ∃ u v encrypted, mid = u++.process :: v ∧ Submits (saeadCrypto env)
      (uplinkFinal (saeadCrypto env) (sessionStarted env pre) u) .process p.2 encrypted := by
  simp only [sentIn, Bool.and_eq_true, decide_eq_true_eq] at h
  obtain ⟨hlow, hsome⟩ := h
  cases hr : (takenResults (sessionTrace env pre mid))[p.1 - takenBefore env pre]? with
  | none => simp [hr] at hsome
  | some result =>
    obtain ⟨block, encrypted⟩ := result
    obtain ⟨encrypted, rfl⟩ := Option.isSome_iff_exists.mp (by simpa [hr] using hsome)
    obtain rfl := taken_block (mem_streamBlocks hp) hlow hr
    obtain ⟨e, he, htaken⟩ := List.mem_flatMap.mp (List.mem_of_getElem? hr)
    obtain ⟨u, op, v, hsplit, rfl⟩ := mem_trace _ he
    obtain ⟨rfl, hsubmits⟩ := taken_submits (saeadCrypto env) htaken
    exact ⟨u, v, encrypted, hsplit, hsubmits⟩

theorem sentIn_iff
    (hstart : (uplinkStep (saeadCrypto env) (uplinkFinal (saeadCrypto env) (.boot .boot) pre)
      .start).2.started = true)
    (hmid : ∀ e ∈ sessionTrace env pre mid, e.output.started = false)
    {handle : Nat} {p : Nat × Buf} (hp : p ∈ streamBlocks handle (sessionRun env pre mid)) :
    sentIn (takenBefore env pre) (takenResults (sessionTrace env pre mid)) p = true ↔
      SealedInSession env pre mid p := by
  have hstate : sessionStarted env pre =
      (uplinkStep (saeadCrypto env) (uplinkFinal (saeadCrypto env) (.boot .boot) pre) .start).1 := by
    rw [sessionStarted, uplinkFinal, final_append]
    rfl
  have hsession : InSession (sessionStarted env pre).crypto.saead.uplink.key
      (sessionStarted env pre).crypto.saead.psa (sessionStarted env pre) := by
    intro _
    refine ⟨?_, rfl, rfl⟩
    rw [hstate]
    exact started_active env hstart
  have hjudged := session_judged env hsession mid hmid
  have hfirst : (sessionStarted env pre).crypto.blocks = takenBefore env pre :=
    saead_run_blocks env (pre++[UplinkOp.start])
  rw [hfirst] at hjudged
  have hlength : (takenBlocks (sessionTrace env pre mid)).length =
      (takenResults (sessionTrace env pre mid)).length := by
    rw [← takenResults_map_fst, List.length_map]
  by_cases hlow : takenBefore env pre ≤ p.1
  · cases hr : (takenResults (sessionTrace env pre mid))[p.1 - takenBefore env pre]? with
    | none =>
      have hlate := List.getElem?_eq_none_iff.mp hr
      have hno : ¬ SealedInSession env pre mid p := by
        rintro ⟨-, hlt, -⟩
        omega
      simp [sentIn, hr, hno]
    | some result =>
      obtain ⟨b, r⟩ := result
      have hlt := (List.getElem?_eq_some_iff.mp hr).1
      have hseals := hjudged _ b r hr
      rw [Nat.add_sub_cancel' hlow] at hseals
      rw [taken_block (mem_streamBlocks hp) hlow hr] at hseals
      have hsent : sentIn (takenBefore env pre) (takenResults (sessionTrace env pre mid)) p =
          r.isSome := by simp [sentIn, hlow, hr]
      rw [hsent, hseals]
      exact ⟨fun h => ⟨hlow, by omega, h⟩, fun h => h.2.2⟩
  · have hno : ¬ SealedInSession env pre mid p := fun h => hlow h.1
    simp [sentIn, hlow, hno]

/-- In every run and every session of it, the blocks of a stream that are sent are a front
part of its blocks exactly if no block that is taken and sealed in the session comes after
one that is not. -/
theorem stream_no_holes_iff (cfg : Config) (env : SaeadEnv cfg) (pre mid : List UplinkOp)
    (handle : Nat)
    (hstart : (uplinkStep (saeadCrypto env) (uplinkFinal (saeadCrypto env) (.boot .boot) pre)
      .start).2.started = true)
    (hmid : ∀ e ∈ sessionTrace env pre mid, e.output.started = false) :
    NoHoles env pre mid handle ↔
      (streamBlocks handle (sessionRun env pre mid)).Pairwise fun p q =>
        SealedInSession env pre mid q → SealedInSession env pre mid p := by
  have hsame : (streamBlocks handle (sessionRun env pre mid)).filter
      (sentIn (takenBefore env pre) (takenResults (sessionTrace env pre mid))) =
      (streamBlocks handle (sessionRun env pre mid)).filter
        fun p => decide (SealedInSession env pre mid p) := by
    apply List.filter_congr
    intro p hp
    rw [Bool.eq_iff_iff, decide_eq_true_iff]
    exact sentIn_iff hstart hmid hp
  rw [NoHoles, hsame, Chunks.filter_prefix_iff]
  simp only [decide_eq_true_eq]

end
def holeConfig : Config := .ofLog 2 .saead
def holeHeader : Buf :=
  [0x82, 0x01, 0x83, 0x01, 0x85, 0x81, 0x50]++List.replicate 16 7++[0x00, 0x01, 0x02, 0x46]++
    List.replicate 6 0++[0x01]
def holeEnv (alloc : Nat → Bool) : SaeadEnv holeConfig where
  start _ := (firstRandom, firstKeys)
  algorithm := .chacha20Poly1305
  header _ := some holeHeader
  header_lt := by
    intro n h hh
    cases hh
    decide
  alloc := alloc
  answer n := some (List.replicate (if n = 0 then 21 else 18) 0)

def holeRun : List UplinkOp :=
  [.write (.streamOpen pathA 42 true true),
    .write (.streamWrite (some 0) [1] fun _ => true), .write (.streamClose (some 0)), .process]

theorem stream_no_holes_two : NoHoles (holeEnv fun _ => true) [] holeRun 0 :=
  (stream_no_holes_iff holeConfig (holeEnv fun _ => true) [] holeRun 0 rfl (by decide)).mpr
    (by decide)

/-- There is no memory to encrypt the first block of a stream, and the second one is sent. -/
theorem stream_hole : ¬ NoHoles (holeEnv fun n => decide (n ≠ 0)) [] holeRun 0 := by
  rw [NoHoles]
  decide

end Pouch
