import PouchNode.DownlinkQueue

/-! The receiver under SAEAD. A block waits for its decryption outside the session that its
pouch has opened: the next header replaces the session at once, and the end of the uplink
session destroys it. -/
namespace Pouch
open Machine

structure SaeadReceiver where
  decode : Buf → Option (EncryptionInfo × Nat)
  keys : Nat → KeyOutcome
  blocks : Nat → BlockOutcome
  alloc : Nat → Bool

structure ReceiverCrypto where
  saead : Saead
  headers : Nat
  blocks : Nat

def ReceiverCrypto.boot : ReceiverCrypto := ⟨.boot, 0, 0⟩

section
variable (cfg : Config) (r : SaeadReceiver)

def saeadReceiverEnv : DownlinkEnv ReceiverCrypto EncryptionInfo where
  cborDecodePouchHeader := r.decode
  cryptoDownlinkStart info k :=
    let (ret, saead) := cryptoDownlinkStart cfg (r.keys k.headers) k.saead info
    (ret, { k with saead, headers := k.headers + 1 })
  cryptoDecryptBlock block k :=
    match block with
    -- a pending handler always finds a block
    | none => (none, k)
    | some b =>
      let (decrypted, saead) := saeadDownlinkBlockDecrypt cfg (r.blocks k.blocks) k.saead b
      (decrypted, { k with saead, blocks := k.blocks + 1 })
  bufAlloc := r.alloc

structure Established where
  id : SessionId
  key : PsaKeyId
  pouchId : UInt16
  deriving DecidableEq

def Session.established (session : Session) : Established :=
  ⟨session.id, session.key, session.pouch.id⟩

/- The receiver, with a record of what every accepted header has established, which of them
   each waiting block came after, and whether crypto_session_end was called since the last. -/
structure Watched where
  down : Downlink ReceiverCrypto
  pouches : List Established
  waiting : List Nat
  ended : Bool

def Watched.boot : Watched := ⟨⟨none, false, ⟨[], false⟩, ⟨[], false⟩, .boot, 0⟩, [], [], false⟩

def Watched.pass (w : Watched) (p : Pass ReceiverCrypto) : Watched :=
  let accepted := !w.down.pouchHeader && p.state.pouchHeader
  let pouches :=
    if accepted then w.pouches++[p.state.crypto.saead.downlink.established] else w.pouches
  { down := p.state
    pouches
    waiting :=
      if w.down.decrypt.queue.length < p.state.decrypt.queue.length then
        w.waiting++[pouches.length - 1]
      else w.waiting
    ended := w.ended && !accepted }

inductive ReceiverOp where
  | start
  | push (chunk : Buf)
  | decrypt
  | sessionEnd
  | uplinkStart (rnd : RandomOutcome) (o : KeyOutcome) (algorithm : PsaAlgorithm)

def Watched.updateSaead (w : Watched) (f : Saead → Saead) : Watched :=
  { w with down :=
    { w.down with crypto := { w.down.crypto with saead := f w.down.crypto.saead } } }

def receiverStep (w : Watched) : ReceiverOp → Watched × Option (Established × Nat)
  | .start => ({ w with down := pouchDownlinkStart (saeadReceiverEnv cfg r) w.down }, none)
  | .push chunk =>
    ((pushPasses cfg (saeadReceiverEnv cfg r) chunk.length w.down chunk).foldl Watched.pass w, none)
  | .decrypt =>
    if w.down.decrypt.pending then
      ({ w with
          down := decryptBlocks (saeadReceiverEnv cfg r) w.down
          waiting := w.waiting.tail },
        w.waiting.head?.map fun n => (w.down.crypto.saead.downlink.established, n))
    else (w, none)
  | .sessionEnd => ({ w.updateSaead cryptoSessionEnd with ended := true }, none)
  | .uplinkStart rnd o algorithm => (w.updateSaead (uplinkStart rnd o algorithm), none)

abbrev receiverFinal : Watched → List ReceiverOp → Watched := final (receiverStep cfg r)

end

section
variable {κ ι : Type*}

def Grows (s t : WorkQueue) : Prop := t = s ∨ ∃ b, t = s.submit b

inductive PassStep (env : DownlinkEnv κ ι) (s t : Downlink κ) : Prop
  | same (header : t.pouchHeader = s.pouchHeader) (crypto : t.crypto = s.crypto)
      (queue : t.decrypt = s.decrypt)
  | block (before : s.pouchHeader = true) (header : t.pouchHeader = true)
      (crypto : t.crypto = s.crypto) (queue : Grows s.decrypt t.decrypt)
  | refused (info : ι) (e : Errno) (before : s.pouchHeader = false)
      (header : t.pouchHeader = false)
      (start : env.cryptoDownlinkStart info s.crypto = (.err e, t.crypto))
      (queue : t.decrypt = s.decrypt)
  | opened (info : ι) (before : s.pouchHeader = false) (header : t.pouchHeader = true)
      (start : env.cryptoDownlinkStart info s.crypto = (.ok, t.crypto))
      (queue : Grows s.decrypt t.decrypt)

theorem pushBlock_keeps (cfg : Config) (env : DownlinkEnv κ ι) (s : Downlink κ) (buf : Buf) :
    (pushBlock cfg env s buf).1.pouchHeader = s.pouchHeader ∧
    (pushBlock cfg env s buf).1.crypto = s.crypto ∧
    Grows s.decrypt (pushBlock cfg env s buf).1.decrypt := by
  simp only [pushBlock]
  split
  · split
    · exact ⟨rfl, rfl, Or.inl rfl⟩
    · split
      · split
        · exact ⟨rfl, rfl, Or.inr ⟨_, rfl⟩⟩
        · split
          · exact ⟨rfl, rfl, Or.inr ⟨_, rfl⟩⟩
          · exact ⟨rfl, rfl, Or.inr ⟨_, rfl⟩⟩
      · exact ⟨rfl, rfl, Or.inl rfl⟩
  · exact ⟨rfl, rfl, Or.inl rfl⟩

theorem pouchDownlinkParseHeader_cases (cfg : Config) (env : DownlinkEnv κ ι) (k : κ) (v : Bufview) :
    pouchDownlinkParseHeader cfg env k v = ((.err .eio, 0), k) ∨
    ∃ info len, pouchDownlinkParseHeader cfg env k v =
      (((env.cryptoDownlinkStart info k).1, len), (env.cryptoDownlinkStart info k).2) := by
  simp only [pouchDownlinkParseHeader]
  split
  · exact Or.inl rfl
  · exact Or.inr ⟨_, _, rfl⟩

theorem pushPass_step (cfg : Config) (env : DownlinkEnv κ ι) (s : Downlink κ) (input : Buf) :
    PassStep env s (pushPass cfg env s input).state := by
  cases hb : s.pouchBuf with
  | none =>
    simp only [pushPass, hb]
    exact .same rfl rfl rfl
  | some buf =>
    by_cases hfull : cfg.maxCiphertextBlockSize ≤ bufSizeGet buf
    · simp only [pushPass, hb, hfull, if_true]
      exact .same rfl rfl rfl
    · cases hh : s.pouchHeader with
      | true =>
        simp only [pushPass, hb, hfull, if_false, hh, if_true]
        obtain ⟨hheader, hcrypto, hqueue⟩ := pushBlock_keeps cfg env s _
        exact .block hh (hheader.trans hh) hcrypto hqueue
      | false =>
        simp only [pushPass, hb, hfull, if_false, hh, Bool.false_eq_true]
        cases pouchDownlinkParseHeader_cases cfg env s.crypto (pouchBufviewInit (bufWrite buf
            (input.take (min input.length (cfg.maxCiphertextBlockSize - bufSizeGet buf))))) with
        | inl hr =>
          rw [hr]
          exact .same hh.symm rfl rfl
        | inr hr =>
          obtain ⟨info, len, he⟩ := hr
          rw [he]
          cases hstart : env.cryptoDownlinkStart info s.crypto with
          | mk ret crypto =>
            cases ret with
            | err e => exact .refused info e hh rfl hstart rfl
            | ok =>
              obtain ⟨hheader, hcrypto, hqueue⟩ := pushBlock_keeps cfg env
                { s with pouchBuf := some buf, pouchHeader := true, crypto } (bufTrimStart _ len)
              refine .opened info hh hheader ?_ hqueue
              rw [hcrypto]
              exact hstart

end

def Watched.Current (w : Watched) : Prop :=
  if w.ended then w.down.crypto.saead.downlink.key = psaKeyIdNull
  else w.down.crypto.saead.downlink.flags.active = true ∧
    w.pouches.getLast? = some w.down.crypto.saead.downlink.established

structure WatchInv (w : Watched) : Prop where
  saead : SaeadInv w.down.crypto.saead
  count : w.waiting.length = w.down.decrypt.queue.length
  known : ∀ n ∈ w.waiting, n < w.pouches.length
  header : w.down.pouchHeader = true → w.pouches ≠ []
  keys : (w.pouches.map Established.key).Pairwise (· < ·)
  bound : ∀ e ∈ w.pouches, e.key ≠ psaKeyIdNull ∧ e.key ≤ w.down.crypto.saead.psa.next
  current : w.pouches ≠ [] → w.Current

theorem watchInv_boot : WatchInv .boot :=
  ⟨saeadInv_boot, rfl, by simp [Watched.boot], by simp [Watched.boot], by simp [Watched.boot],
    by simp [Watched.boot], by simp [Watched.boot]⟩

section
variable {cfg : Config} {r : SaeadReceiver} {w : Watched}

theorem grows_length {s t : WorkQueue} (h : Grows s t) :
    t.queue.length = s.queue.length ∨ t.queue.length = s.queue.length + 1 := by
  cases h with
  | inl he => exact Or.inl (by rw [he])
  | inr he =>
    obtain ⟨b, rfl⟩ := he
    exact Or.inr (by simp [WorkQueue.submit, bufQueueSubmit])

theorem waiting_grows {waiting : List Nat} {s t : WorkQueue} {m : Nat} (h : Grows s t)
    (hm : s.queue.length < t.queue.length → 0 < m) (hcount : waiting.length = s.queue.length)
    (hknown : ∀ n ∈ waiting, n < m) :
    (if s.queue.length < t.queue.length then waiting++[m - 1] else waiting).length =
      t.queue.length ∧
    ∀ n ∈ (if s.queue.length < t.queue.length then waiting++[m - 1] else waiting), n < m := by
  cases grows_length h with
  | inl hl =>
    rw [if_neg (by omega)]
    exact ⟨by omega, hknown⟩
  | inr hl =>
    rw [if_pos (by omega)]
    refine ⟨by simp; omega, ?_⟩
    intro n hn
    cases List.mem_append.mp hn with
    | inl hold => exact hknown n hold
    | inr hnew =>
      have he := List.mem_singleton.mp hnew
      have hpos := hm (by omega)
      omega

theorem WatchInv.quiet (h : WatchInv w) {p : Pass ReceiverCrypto}
    (header : p.state.pouchHeader = w.down.pouchHeader)
    (saead : p.state.crypto.saead = w.down.crypto.saead)
    (queue : Grows w.down.decrypt p.state.decrypt)
    (grown : w.down.decrypt.queue.length < p.state.decrypt.queue.length →
      w.down.pouchHeader = true) : WatchInv (w.pass p) := by
  have hnone : (!w.down.pouchHeader && p.state.pouchHeader) = false := by
    rw [header]
    exact Bool.not_and_self _
  have hlast : w.down.decrypt.queue.length < p.state.decrypt.queue.length →
      0 < w.pouches.length := fun hlt => List.length_pos_iff.mpr (h.header (grown hlt))
  obtain ⟨hcount, hknown⟩ := waiting_grows queue hlast h.count h.known
  simp only [Watched.pass, hnone, Bool.false_eq_true, if_false, Bool.not_false, Bool.and_true]
  refine ⟨?_, hcount, hknown, ?_, h.keys, ?_, ?_⟩
  · rw [saead]
    exact h.saead
  · rw [header]
    exact h.header
  · rw [saead]
    exact h.bound
  · intro hne
    have hcur := h.current hne
    simp only [Watched.Current] at hcur ⊢
    rw [saead]
    exact hcur

/-- A pass that accepts a header: its key is newer than all others. -/
theorem WatchInv.opened (h : WatchInv w) {p : Pass ReceiverCrypto} {id : SessionId}
    {algorithm : PsaAlgorithm} {pouchId : UInt16}
    (before : w.down.pouchHeader = false) (header : p.state.pouchHeader = true)
    (saead : p.state.crypto.saead = { w.down.crypto.saead with
      psa := w.down.crypto.saead.psa.create.2
      downlink := acceptedSession w.down.crypto.saead.downlink id algorithm
        w.down.crypto.saead.psa.create.1 pouchId })
    (inv : SaeadInv p.state.crypto.saead)
    (queue : Grows w.down.decrypt p.state.decrypt) : WatchInv (w.pass p) := by
  have hyes : (!w.down.pouchHeader && p.state.pouchHeader) = true := by rw [before, header]; rfl
  have hkey : p.state.crypto.saead.downlink.established.key =
      w.down.crypto.saead.psa.next + 1 := by rw [saead]; rfl
  have hnext : p.state.crypto.saead.psa.next = w.down.crypto.saead.psa.next + 1 := by
    rw [saead]
    rfl
  have hlater : ∀ n ∈ w.waiting,
      n < (w.pouches++[p.state.crypto.saead.downlink.established]).length := by
    intro n hn
    have hlt := h.known n hn
    simp
    omega
  obtain ⟨hcount, hknown⟩ := waiting_grows queue (fun _ => by simp) h.count hlater
  simp only [Watched.pass, hyes, if_true, Bool.not_true, Bool.and_false]
  refine ⟨inv, hcount, hknown, fun _ => by simp, ?_, ?_, ?_⟩
  · rw [List.map_append, List.pairwise_append]
    refine ⟨h.keys, by simp, ?_⟩
    intro a ha b hb
    obtain ⟨e, he, rfl⟩ := List.mem_map.mp ha
    rw [List.map_singleton, List.mem_singleton, hkey] at hb
    have hbound := (h.bound e he).2
    rw [hb]
    exact Nat.lt_succ_of_le hbound
  · intro e he
    rw [hnext]
    cases List.mem_append.mp he with
    | inl hold => exact ⟨(h.bound e hold).1, Nat.le_succ_of_le (h.bound e hold).2⟩
    | inr hnew =>
      rw [List.mem_singleton.mp hnew, hkey]
      exact ⟨Nat.succ_ne_zero _, le_refl _⟩
  · intro _
    simp only [Watched.Current, Bool.false_eq_true, if_false]
    exact ⟨by rw [saead]; rfl, by simp⟩

theorem WatchInv.pass (cfg : Config) (r : SaeadReceiver) (h : WatchInv w) (input : Buf) :
    WatchInv (w.pass (pushPass cfg (saeadReceiverEnv cfg r) w.down input)) := by
  have hstep := pushPass_step cfg (saeadReceiverEnv cfg r) w.down input
  generalize pushPass cfg (saeadReceiverEnv cfg r) w.down input = p at hstep
  cases hstep with
  | same header crypto queue =>
    exact h.quiet header (by rw [crypto]) (Or.inl queue) (fun hlt => by simp [queue] at hlt)
  | block before header crypto queue =>
    exact h.quiet (header.trans before.symm) (by rw [crypto]) queue fun _ => before
  | refused info e before header start queue =>
    refine h.quiet (header.trans before.symm) ?_ (Or.inl queue) (fun hlt => by simp [queue] at hlt)
    simp only [saeadReceiverEnv, Prod.mk.injEq] at start
    cases cryptoDownlinkStart_cases cfg h.saead (r.keys w.down.crypto.headers) info with
    | inl hr =>
      obtain ⟨e', he⟩ := hr
      rw [← start.2, he]
    | inr hr =>
      obtain ⟨session, pouchId, id, -, -, -, -, -, he⟩ := hr
      rw [he] at start
      cases start.1
  | opened info before header start queue =>
    simp only [saeadReceiverEnv, Prod.mk.injEq] at start
    have hinv := saeadStep_inv cfg (.header info (r.keys w.down.crypto.headers)) h.saead
    cases cryptoDownlinkStart_cases cfg h.saead (r.keys w.down.crypto.headers) info with
    | inl hr =>
      obtain ⟨e, he⟩ := hr
      rw [he] at start
      cases start.1
    | inr hr =>
      obtain ⟨session, pouchId, id, -, -, -, -, -, he⟩ := hr
      simp only [saeadStep, he] at hinv
      rw [he] at start
      exact h.opened before header (by rw [← start.2]) (by rw [← start.2]; exact hinv) queue

theorem WatchInv.push (h : WatchInv w) (fuel : Nat) (input : Buf) :
    WatchInv ((pushPasses cfg (saeadReceiverEnv cfg r) fuel w.down input).foldl Watched.pass w) := by
  induction fuel generalizing w input with
  | zero => simpa [pushPasses] using h
  | succ fuel ih =>
    cases input with
    | nil => simpa [pushPasses] using h
    | cons x xs =>
      have hpass := h.pass cfg r (x :: xs)
      have hrest := ih hpass (pushPass cfg (saeadReceiverEnv cfg r) w.down (x :: xs)).rest
      simp only [pushPasses]
      split
      · exact hpass
      · exact hrest

theorem WatchInv.kept (h : WatchInv w) {down : Downlink ReceiverCrypto} {waiting : List Nat}
    (saead : SaeadInv down.crypto.saead) (header : down.pouchHeader = w.down.pouchHeader)
    (next : w.down.crypto.saead.psa.next ≤ down.crypto.saead.psa.next)
    (session : down.crypto.saead.downlink.established = w.down.crypto.saead.downlink.established)
    (active : down.crypto.saead.downlink.flags.active = w.down.crypto.saead.downlink.flags.active)
    (count : waiting.length = down.decrypt.queue.length) (known : ∀ n ∈ waiting, n ∈ w.waiting) :
    WatchInv { w with down, waiting } := by
  refine ⟨saead, count, fun n hn => h.known n (known n hn), ?_, h.keys, ?_, ?_⟩
  · rw [header]
    exact h.header
  · intro e he
    exact ⟨(h.bound e he).1, (h.bound e he).2.trans next⟩
  · intro hne
    have hcur := h.current hne
    have hkey : down.crypto.saead.downlink.key = w.down.crypto.saead.downlink.key :=
      congrArg Established.key session
    simp only [Watched.Current] at hcur ⊢
    rw [hkey, session, active]
    exact hcur

theorem decryptBlocks_crypto (cfg : Config) (r : SaeadReceiver) (s : Downlink ReceiverCrypto) :
    (decryptBlocks (saeadReceiverEnv cfg r) s).pouchHeader = s.pouchHeader ∧
    (decryptBlocks (saeadReceiverEnv cfg r) s).crypto =
      ((saeadReceiverEnv cfg r).cryptoDecryptBlock s.decrypt.queue.head? s.crypto).2 := by
  cases he : (saeadReceiverEnv cfg r).cryptoDecryptBlock s.decrypt.queue.head? s.crypto with
  | mk decrypted crypto =>
    cases decrypted with
    | none => simp [decryptBlocks, bufQueueGet_eq, he]
    | some block => simp [decryptBlocks, bufQueueGet_eq, he]

/-- A decryption works within the session and leaves what its header has established. -/
theorem cryptoDecryptBlock_session (cfg : Config) (r : SaeadReceiver) {k : ReceiverCrypto}
    (h : SaeadInv k.saead) (block : Option Buf) :
    SaeadInv ((saeadReceiverEnv cfg r).cryptoDecryptBlock block k).2.saead ∧
    ((saeadReceiverEnv cfg r).cryptoDecryptBlock block k).2.saead.psa = k.saead.psa ∧
    ((saeadReceiverEnv cfg r).cryptoDecryptBlock block k).2.saead.downlink.established =
      k.saead.downlink.established ∧
    ((saeadReceiverEnv cfg r).cryptoDecryptBlock block k).2.saead.downlink.flags.active =
      k.saead.downlink.flags.active := by
  cases block with
  | none => exact ⟨h, rfl, rfl, rfl⟩
  | some b =>
    have hinv := saeadStep_inv cfg (.decrypt b (r.blocks k.blocks)) h
    cases saeadDownlinkBlockDecrypt_cases cfg k.saead (r.blocks k.blocks) b with
    | inl hr =>
      simp only [saeadReceiverEnv, hr, and_true]
      exact h
    | inr hr =>
      obtain ⟨-, d, pouch, hid, he⟩ := hr
      simp only [saeadStep, he] at hinv
      simp only [saeadReceiverEnv, he]
      exact ⟨hinv, trivial, by simp [Session.established, hid], trivial⟩

theorem WatchInv.decrypted (cfg : Config) (r : SaeadReceiver) (h : WatchInv w) :
    WatchInv { w with
      down := decryptBlocks (saeadReceiverEnv cfg r) w.down, waiting := w.waiting.tail } := by
  obtain ⟨hheader, hcrypto⟩ := decryptBlocks_crypto cfg r w.down
  obtain ⟨hinv, hpsa, hsession, hactive⟩ :=
    cryptoDecryptBlock_session cfg r h.saead w.down.decrypt.queue.head?
  have hqueue : (decryptBlocks (saeadReceiverEnv cfg r) w.down).decrypt.queue =
      w.down.decrypt.queue.tail := by
    cases decryptBlocks_cases (saeadReceiverEnv cfg r) w.down with
    | inl hr => rw [hr.2.1]
    | inr hr => rw [hr.2.1]
  rw [← hcrypto] at hinv hpsa hsession hactive
  refine h.kept hinv hheader (by rw [hpsa]) hsession hactive ?_ fun n => List.mem_of_mem_tail
  rw [hqueue, List.length_tail, List.length_tail, h.count]

theorem WatchInv.sessionEnd (h : WatchInv w) :
    WatchInv { w.updateSaead cryptoSessionEnd with ended := true } := by
  obtain ⟨-, -, -, -, -, -, hnext, hkey, -⟩ := cryptoSessionEnd_downlink w.down.crypto.saead
  refine ⟨saeadStep_inv (.ofLog 0 .saead) .sessionEnd h.saead, h.count, h.known, h.header, h.keys,
    ?_, ?_⟩
  · intro e he
    simp only [Watched.updateSaead, hnext]
    exact h.bound e he
  · intro hne
    have hcur := h.current hne
    simp only [Watched.Current, Watched.updateSaead, if_true] at hcur ⊢
    cases hended : w.ended with
    | true =>
      rw [hended, if_pos rfl] at hcur
      cases hkey with
      | inl hk => rw [hk, hcur]
      | inr hk => exact hk
    | false =>
      rw [hended, if_neg (by decide)] at hcur
      cases hu : w.down.crypto.saead.uplink.flags.active <;>
        simp [cryptoSessionEnd, saeadUplinkSessionEnd, saeadDownlinkSessionEnd, Pouch.sessionEnd,
          hu, hcur.1]

theorem receiverStep_inv (cfg : Config) (r : SaeadReceiver) (h : WatchInv w) (op : ReceiverOp) :
    WatchInv (receiverStep cfg r w op).1 := by
  cases op with
  | start => exact ⟨h.saead, h.count, h.known, nofun, h.keys, h.bound, h.current⟩
  | push chunk => exact h.push chunk.length chunk
  | decrypt =>
    cases hp : w.down.decrypt.pending with
    | false => simpa [receiverStep, hp] using h
    | true =>
      simp only [receiverStep, hp, if_true]
      exact h.decrypted cfg r
  | sessionEnd => exact h.sessionEnd
  | uplinkStart rnd o algorithm =>
    obtain ⟨hdown, -, hpsa, -⟩ := uplinkStart_downlink (s := w.down.crypto.saead) rnd o algorithm
    refine h.kept (saeadStep_inv cfg (.uplinkStart rnd o algorithm) h.saead) rfl ?_ ?_ ?_ h.count
      fun n hn => hn
    · cases hpsa with
      | inl hp => exact (congrArg Psa.next hp).ge
      | inr hp => exact (Nat.le_succ _).trans (congrArg Psa.next hp).ge
    · exact congrArg Session.established hdown
    · exact congrArg (·.flags.active) hdown

/-- The session in use is the one that the n-th header has established exactly if no header
came after it and nothing has ended it. -/
theorem WatchInv.established_iff (h : WatchInv w) {n : Nat} {e : Established}
    (hn : w.pouches[n]? = some e) :
    w.down.crypto.saead.downlink.established = e ↔ n + 1 = w.pouches.length ∧ w.ended = false := by
  have hlt := (List.getElem?_eq_some_iff.mp hn).1
  have hmem := List.mem_of_getElem? hn
  have hcur := h.current (List.ne_nil_of_length_pos (by omega))
  cases hended : w.ended with
  | true =>
    rw [Watched.Current, hended, if_pos rfl] at hcur
    refine iff_of_false ?_ (by simp)
    intro he
    exact (h.bound e hmem).1 (by rw [← he]; exact hcur)
  | false =>
    rw [Watched.Current, hended, if_neg (by decide)] at hcur
    have hlast := hcur.2
    rw [List.getLast?_eq_getElem?] at hlast
    constructor
    · intro he
      rw [he] at hlast
      refine ⟨?_, rfl⟩
      by_contra hne
      -- the keys of later headers are greater
      have hpair := List.pairwise_iff_getElem.mp h.keys n (w.pouches.length - 1)
        (by simpa using hlt) (by simp; omega) (by omega)
      have hnth : w.pouches[n] = e := (List.getElem?_eq_some_iff.mp hn).2
      obtain ⟨_, hend⟩ := List.getElem?_eq_some_iff.mp hlast
      simp [hnth, hend] at hpair
    · intro hc
      have hsame : w.pouches.length - 1 = n := by omega
      rw [hsame, hn] at hlast
      exact (Option.some.inj hlast).symm

end

def OwnSession (w : Watched) (out : Option (Established × Nat)) : Prop :=
  ∀ e n, out = some (e, n) → w.pouches[n]? = some e

def Watched.Takes (w : Watched) (n : Nat) : Prop :=
  w.down.decrypt.pending = true ∧ w.waiting.head? = some n

theorem receiverStep_own (cfg : Config) (r : SaeadReceiver) {w : Watched} (h : WatchInv w) :
    OwnSession w (receiverStep cfg r w .decrypt).2 ↔
      ∀ n, w.Takes n → n + 1 = w.pouches.length ∧ w.ended = false := by
  cases hp : w.down.decrypt.pending with
  | false => simp [receiverStep, OwnSession, Watched.Takes, hp]
  | true =>
    cases hn : w.waiting.head? with
    | none => simp [receiverStep, OwnSession, Watched.Takes, hp, hn]
    | some n =>
      obtain ⟨e, he⟩ : ∃ e, w.pouches[n]? = some e :=
        ⟨_, List.getElem?_eq_getElem (h.known n (List.mem_of_head? hn))⟩
      have hown : OwnSession w (some (w.down.crypto.saead.downlink.established, n)) ↔
          w.down.crypto.saead.downlink.established = e := by
        simp [OwnSession, he, eq_comm (a := e)]
      have htakes : (∀ m, w.Takes m → m + 1 = w.pouches.length ∧ w.ended = false) ↔
          n + 1 = w.pouches.length ∧ w.ended = false := by simp [Watched.Takes, hp, hn]
      simp only [receiverStep, hp, hn, if_true, Option.map_some]
      rw [hown, htakes, h.established_iff he]

/-- In every run, every block is decrypted in the session that the header of its own pouch
has established, exactly if decrypt_blocks only ever takes blocks of the pouch whose header
was accepted last, with no crypto_session_end since. -/
theorem decrypted_in_own_session_iff (cfg : Config) (r : SaeadReceiver) (ops : List ReceiverOp) :
    (∀ u v, ops = u++.decrypt :: v →
      OwnSession (receiverFinal cfg r .boot u)
        (receiverStep cfg r (receiverFinal cfg r .boot u) .decrypt).2) ↔
    ∀ u v, ops = u++.decrypt :: v → ∀ n, (receiverFinal cfg r .boot u).Takes n →
      n + 1 = (receiverFinal cfg r .boot u).pouches.length ∧
        (receiverFinal cfg r .boot u).ended = false := by
  have hinv : ∀ u, WatchInv (receiverFinal cfg r .boot u) := fun u =>
    final_invariant (P := WatchInv) (receiverStep cfg r)
      (fun _ op h => receiverStep_inv cfg r h op) .boot u watchInv_boot
  constructor
  · intro h u v hsplit
    exact (receiverStep_own cfg r (hinv u)).mp (h u v hsplit)
  · intro h u v hsplit
    exact (receiverStep_own cfg r (hinv u)).mpr (h u v hsplit)

def serverRandomHeader (pouchId : UInt8) : Buf :=
  [0x82, 1, 0x83, 1, 0x85, 0x81, 0x50]++List.replicate 16 7++[1, 1, 9, 0x46]++
    List.replicate 6 0xCE++[pouchId]

def twoPouches : SaeadReceiver where
  decode raw :=
    if raw.take 34 = serverRandomHeader 3 then some (.saead serverRandom 3, 34)
    else if raw.take 34 = serverRandomHeader 4 then some (.saead serverRandom 4, 34)
    else none
  keys _ := keysWork
  blocks _ := opens
  alloc _ := true

/-- The block of pouch 3 is still waiting when the header of pouch 4 arrives, or when the
uplink session ends. -/
theorem waiting_block_loses_its_session :
    (∃ u v, [.start, .push (serverRandomHeader 3++sealedBlock), .start,
        .push (serverRandomHeader 4), .decrypt] = u++ReceiverOp.decrypt :: v ∧
      ¬ OwnSession (receiverFinal saeadConfig twoPouches .boot u)
        (receiverStep saeadConfig twoPouches
          (receiverFinal saeadConfig twoPouches .boot u) .decrypt).2) ∧
    ∃ u v, [.start, .push (serverRandomHeader 3++sealedBlock), .sessionEnd, .decrypt] =
        u++ReceiverOp.decrypt :: v ∧
      ¬ OwnSession (receiverFinal saeadConfig twoPouches .boot u)
        (receiverStep saeadConfig twoPouches
          (receiverFinal saeadConfig twoPouches .boot u) .decrypt).2 := by
  refine ⟨⟨[.start, .push (serverRandomHeader 3++sealedBlock), .start,
    .push (serverRandomHeader 4)], [], rfl, ?_⟩,
    [.start, .push (serverRandomHeader 3++sealedBlock), .sessionEnd], [], rfl, ?_⟩
  · intro h
    exact absurd (h ⟨⟨.server, .random (Vector.replicate 16 7)⟩, 2, 4⟩ 0 (by decide))
      (by decide)
  · intro h
    exact absurd (h ⟨⟨.server, .random (Vector.replicate 16 7)⟩, 0, 3⟩ 0 (by decide))
      (by decide)

end Pouch
