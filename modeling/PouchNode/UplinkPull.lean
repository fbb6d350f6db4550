import PouchNode.UplinkSession

/-! Runs of the uplink. In each session the pulled bytes are a front part of the header and
the encrypted blocks, all of it once the session says that there is no more; and no block
is taken out of turn or twice. -/
namespace Pouch
open Machine
variable {κ : Type*} {cfg : Config}

section
variable {s : Uplink κ}

structure Idle (s : Uplink κ) : Prop where
  inactive : s.sessionActive = false
  transport : s.transport = []
  reader : s.reader = ⟨none, 0⟩

def SessionsFinished : Bool → List UplinkOp → Prop
  | _, [] => True
  | due, .start :: ops => due = false ∧ SessionsFinished true ops
  | _, .finish :: ops => SessionsFinished false ops
  | due, _ :: ops => SessionsFinished due ops

theorem SessionsFinished.cons {due : Bool} {op : UplinkOp} {ops : List UplinkOp}
    (h : SessionsFinished due (op :: ops)) :
    op = .start ∧ due = false ∧ SessionsFinished true ops ∨
    op = .finish ∧ SessionsFinished false ops ∨
    op ≠ .start ∧ op ≠ .finish ∧ SessionsFinished due ops := by
  cases op with
  | start => exact Or.inl ⟨rfl, h⟩
  | finish => exact Or.inr (Or.inl ⟨rfl, h⟩)
  | enqueue block => exact Or.inr (Or.inr ⟨nofun, nofun, h⟩)
  | write op => exact Or.inr (Or.inr ⟨nofun, nofun, h⟩)
  | close lock => exact Or.inr (Or.inr ⟨nofun, nofun, h⟩)
  | process => exact Or.inr (Or.inr ⟨nofun, nofun, h⟩)
  | fill maxlen => exact Or.inr (Or.inr ⟨nofun, nofun, h⟩)

theorem Idle.step (crypto : CryptoOps cfg κ) (h : Idle s) {op : UplinkOp} (hop : op ≠ .start) :
    Idle (uplinkStep crypto s op).1 := by
  cases uplinkStep_cases crypto s op hop with
  | quiet same =>
    exact ⟨same.sessionActive.trans h.inactive, same.transport.trans h.transport,
      same.reader.trans h.reader⟩
  | processed active => simp [h.inactive] at active
  | refused inactive same =>
    rw [same]
    exact h
  | filled maxlen result bytes fill => exact absurd fill.active (by simp [h.inactive])
  | finished inactive header transport reader => exact ⟨inactive, transport, reader⟩

theorem idle_finish (crypto : CryptoOps cfg κ) (s : Uplink κ) :
    Idle (uplinkStep crypto s .finish).1 := by
  cases ha : s.sessionActive with
  | false => exact ⟨by simp [uplinkStep, pouchUplinkFinish, ha],
      by simp [uplinkStep, pouchUplinkFinish, ha],
      by simp [uplinkStep, pouchUplinkFinish, ha, pouchBufviewFree]⟩
  | true => exact ⟨by simp [uplinkStep, pouchUplinkFinish, ha, endSession],
      by simp [uplinkStep, pouchUplinkFinish, ha, endSession],
      by simp [uplinkStep, pouchUplinkFinish, ha, endSession, pouchBufviewFree]⟩

theorem idle_before_start (crypto : CryptoOps cfg κ) {due : Bool} {u v : List UplinkOp}
    (h : SessionsFinished due (u++.start :: v)) (hidle : due = false → Idle s) :
    Idle (uplinkFinal crypto s u) := by
  induction u generalizing s due with
  | nil => exact hidle h.1
  | cons op u ih =>
    cases SessionsFinished.cons h with
    | inl hstart => exact ih hstart.2.2 (fun hf => by cases hf)
    | inr hr =>
      cases hr with
      | inl hfinish =>
        obtain ⟨rfl, hrest⟩ := hfinish
        exact ih hrest fun _ => idle_finish crypto s
      | inr hother => exact ih hother.2.2 fun hd => (hidle hd).step crypto hother.1

/-- A successful start makes the header and begins with nothing to pull. -/
theorem pulling_start (crypto : CryptoOps cfg κ) (h : Idle s)
    (hstart : (uplinkStep crypto s .start).2.started = true) :
    ∃ H, (uplinkStep crypto s .start).1.header = some H ∧ H.length < 2^cfg.sizeBits ∧
      Pulling crypto (uplinkStep crypto s .start).1.crypto H [] (uplinkStep crypto s .start).1 := by
  cases uplinkStep_start crypto s with
  | busy active result => simp [result] at hstart
  | failed inactive result => simp [result] at hstart
  | begun inactive result H k1 k2 k3 session pouch made same =>
    rw [same]
    refine ⟨H, rfl, crypto.header_lt k2 H (by rw [made]), rfl, rfl, rfl, rfl, ?_, ?_, ?_⟩
    · simp [h.reader, h.transport, waitingBytes, Bufview.rest, returnedBytes, sentBlocks, withHeader]
    · simp [h.reader, ReaderOk]
    · simp [h.transport]

end

def pouchString (crypto : CryptoOps cfg κ) (k : κ) (H : Buf) (blocks : List Buf) : Buf :=
  if blocks = [] then [] else H++(encryptBlocks crypto k blocks).1.flatten

structure PullExact (crypto : CryptoOps cfg κ) (H : Buf) (s : Uplink κ) (ops : List UplinkOp) :
    Prop where
  cut : returnedBytes (uplinkTrace crypto s ops) <+:
    pouchString crypto s.crypto H (takenBlocks (uplinkTrace crypto s ops))
  next : ∀ u maxlen v, ops = u++.fill maxlen :: v →
    (uplinkFinal crypto s u).sessionActive = true →
    (uplinkStep crypto (uplinkFinal crypto s u) (.fill maxlen)).2.filled.map Prod.snd =
      some (((pouchString crypto s.crypto H (takenBlocks (uplinkTrace crypto s u))).drop
        (returnedBytes (uplinkTrace crypto s u)).length).take maxlen)
  complete : ∀ u maxlen v, ops = u++.fill maxlen :: v →
    (uplinkStep crypto (uplinkFinal crypto s u) (.fill maxlen)).2.filled.map Prod.fst =
      some .noMoreData →
    returnedBytes (uplinkTrace crypto s (u++[.fill maxlen])) =
      pouchString crypto s.crypto H (takenBlocks (uplinkTrace crypto s ops)) ∧
    ∀ e ∈ uplinkTrace crypto (uplinkFinal crypto s (u++[.fill maxlen])) v, ∀ n,
      e.input = .fill n → e.output.filled = some (.error, [])

section
variable {crypto : CryptoOps cfg κ} {k : κ} {H : Buf} {tr : List (UplinkEvent κ)} {s : Uplink κ}

theorem sentBlocks_eq_nil_iff (hcrypto : ∀ e ∈ tr, ∀ t ∈ e.output.taken, t.2.isSome = true) :
    sentBlocks tr = [] ↔ takenBlocks tr = [] := by
  simp only [sentBlocks, takenBlocks, List.flatMap_eq_nil_iff, List.filterMap_eq_nil_iff,
    List.map_eq_nil_iff]
  constructor
  · intro h e he
    by_contra hne
    obtain ⟨t, ht⟩ := List.exists_mem_of_ne_nil _ hne
    have hsome := hcrypto e he t ht
    rw [h e he t ht] at hsome
    cases hsome
  · intro h e he t ht
    rw [h e he] at ht
    cases ht

theorem sessionString_eq (hcrypto : ∀ e ∈ tr, ∀ t ∈ e.output.taken, t.2.isSome = true)
    (hsent : sentBlocks tr = (encryptBlocks crypto k (takenBlocks tr)).1) :
    sessionString crypto k H (takenBlocks tr) = pouchString crypto k H (takenBlocks tr) := by
  have hnil := sentBlocks_eq_nil_iff hcrypto
  rw [hsent] at hnil
  by_cases hz : takenBlocks tr = []
  · simp [sessionString, pouchString, hz, encryptBlocks, withHeader]
  · have hne : (encryptBlocks crypto k (takenBlocks tr)).1 ≠ [] := fun he => hz (hnil.mp he)
    simp [sessionString, pouchString, hz, withHeader, hne]

section
variable (h : Pulling crypto s.crypto H [] s) (hH : H.length < 2^cfg.sizeBits)
include h hH

theorem pulled_front {ops : List UplinkOp} (hops : .start ∉ ops)
    (hcrypto : ∀ e ∈ uplinkTrace crypto s ops, ∀ t ∈ e.output.taken, t.2.isSome = true) :
    returnedBytes (uplinkTrace crypto s ops) <+:
      pouchString crypto s.crypto H (takenBlocks (uplinkTrace crypto s ops)) := by
  cases session_run h hH ops hops with
  | inl hp =>
    rw [← sessionString_eq hcrypto hp.sent, ← hp.string]
    exact List.prefix_append _ _
  | inr he =>
    rw [← sessionString_eq hcrypto he.sent]
    exact he.front

/-- A pull goes on where the last one stopped. -/
theorem pulled_next {u : List UplinkOp} (maxlen : Nat) (hu : .start ∉ u)
    (hcrypto : ∀ e ∈ uplinkTrace crypto s u, ∀ t ∈ e.output.taken, t.2.isSome = true)
    (hactive : (uplinkFinal crypto s u).sessionActive = true) :
    (uplinkStep crypto (uplinkFinal crypto s u) (.fill maxlen)).2.filled.map Prod.snd =
      some (((pouchString crypto s.crypto H (takenBlocks (uplinkTrace crypto s u))).drop
        (returnedBytes (uplinkTrace crypto s u)).length).take maxlen) := by
  cases session_run h hH u hu with
  | inr he => simp [he.inactive] at hactive
  | inl hp =>
    obtain ⟨result, bytes, hfill⟩ := fillStep crypto hactive maxlen
    have hspec := hfill.spec hp.reader hp.lengths
    rw [← sessionString_eq hcrypto hp.sent, ← hp.string, List.drop_left, hfill.output]
    exact congrArg some hspec.bytes

/-- A pull that says there is no more has returned everything and ends the session. -/
theorem pulled_all {u : List UplinkOp} {maxlen : Nat} (hu : .start ∉ u)
    (hcrypto : ∀ e ∈ uplinkTrace crypto s (u++[.fill maxlen]), ∀ t ∈ e.output.taken,
      t.2.isSome = true)
    (hdone : (uplinkStep crypto (uplinkFinal crypto s u) (.fill maxlen)).2.filled.map Prod.fst =
      some .noMoreData) :
    (uplinkFinal crypto s (u++[.fill maxlen])).sessionActive = false ∧
    returnedBytes (uplinkTrace crypto s (u++[.fill maxlen])) =
      pouchString crypto s.crypto H (takenBlocks (uplinkTrace crypto s (u++[.fill maxlen]))) := by
  have htrace : uplinkTrace crypto s (u++[.fill maxlen]) = uplinkTrace crypto s u++
      [event (uplinkStep crypto) (uplinkFinal crypto s u) (.fill maxlen)] := trace_append _ _ _ _
  cases session_run h hH u hu with
  | inr he =>
    -- outside a session the answer is an error
    cases (inactive_step crypto he.inactive (.fill maxlen) nofun).2.2 with
    | inl hnone => simp [hnone] at hdone
    | inr herr => simp [herr] at hdone
  | inl hp =>
    obtain ⟨result, bytes, hfill⟩ := fillStep crypto hp.active maxlen
    have hspec := hfill.spec hp.reader hp.lengths
    rw [hfill.output, Option.map_some, Option.some.injEq] at hdone
    cases hfill.ends with
    | inl more => simp [more.1] at hdone
    | inr done =>
      obtain ⟨-, hinactive, htransport, hempty, -⟩ := done
      constructor
      · rw [uplinkFinal, final_append]
        exact hinactive
      · rw [htrace] at hcrypto ⊢
        rw [hp.drained hfill.output hfill.taken hspec htransport hempty]
        apply sessionString_eq hcrypto
        simp [event, hfill.taken, hp.sent]

/-- A session keeps what PullExact says, whatever happens in it. -/
theorem pullExact_run (ops : List UplinkOp) (hops : .start ∉ ops)
    (hcrypto : ∀ e ∈ uplinkTrace crypto s ops, ∀ t ∈ e.output.taken, t.2.isSome = true) :
    PullExact crypto H s ops := by
  have hfront : ∀ u v, ops = u++v → .start ∉ u ∧
      ∀ e ∈ uplinkTrace crypto s u, ∀ t ∈ e.output.taken, t.2.isSome = true := by
    intro u v hv
    subst hv
    refine ⟨fun hm => hops (List.mem_append_left _ hm), fun e he => hcrypto e ?_⟩
    rw [uplinkTrace, trace_append]
    exact List.mem_append_left _ he
  refine ⟨pulled_front h hH hops hcrypto, ?_, ?_⟩
  · intro u maxlen v hv
    exact pulled_next h hH maxlen (hfront u _ hv).1 (hfront u _ hv).2
  · intro u maxlen v hv hdone
    have hsplit : ops = (u++[.fill maxlen])++v := by simp [hv]
    obtain ⟨hinactive, hall⟩ := pulled_all h hH (hfront u _ hv).1 (hfront _ v hsplit).2 hdone
    have hv' : .start ∉ v := fun hm => hops (by rw [hv]; simp [hm])
    obtain ⟨hnone, herr⟩ := inactive_run crypto hinactive v hv'
    -- nothing is taken any more
    have htaken : takenBlocks (uplinkTrace crypto s ops) =
        takenBlocks (uplinkTrace crypto s (u++[.fill maxlen])) := by
      rw [hsplit, uplinkTrace, trace_append, takenBlocks, List.flatMap_append]
      exact (congrArg (_++·) hnone).trans (List.append_nil _)
    refine ⟨by rw [hall, htaken], ?_⟩
    intro e he n hn
    cases herr e he with
    | inr hyes => exact hyes
    | inl hno =>
      obtain ⟨u', op, v', -, rfl⟩ := mem_trace _ he
      have hop : op = .fill n := hn
      subst hop
      simp [event, uplinkStep] at hno

end
end

/-- In every run in which each start succeeds and is followed by a finish before the next,
and no encryption fails: every session is pulled exactly, and over the whole run the blocks
taken and then those still waiting are the blocks enqueued, in order. -/
theorem uplink_pull_exact (crypto : CryptoOps cfg κ) (k : κ) (ops : List UplinkOp)
    (hfinish : SessionsFinished false ops)
    (hstarts : ∀ e ∈ uplinkTrace crypto (.boot k) ops, e.input = .start → e.output.started = true)
    (hcrypto : ∀ e ∈ uplinkTrace crypto (.boot k) ops, ∀ t ∈ e.output.taken, t.2.isSome = true) :
    (∀ pre mid post, ops = pre++.start :: mid++post → .start ∉ mid →
      ∃ H, (uplinkFinal crypto (.boot k) (pre++[.start])).header = some H ∧
        PullExact crypto H (uplinkFinal crypto (.boot k) (pre++[.start])) mid) ∧
    takenBlocks (uplinkTrace crypto (.boot k) ops)++
      (uplinkFinal crypto (.boot k) ops).processing.queue =
        enqueuedInRun (uplinkTrace crypto (.boot k) ops) := by
  refine ⟨?_, taken_append_queue crypto k ops⟩
  intro pre mid post hops hmid
  have hlater : ops = (pre++[.start])++(mid++post) := by simp [hops]
  have hidle : Idle (uplinkFinal crypto (.boot k) pre) := by
    rw [hops, List.append_assoc] at hfinish
    exact idle_before_start crypto hfinish fun _ => ⟨rfl, rfl, rfl⟩
  have hstart : (uplinkStep crypto (uplinkFinal crypto (.boot k) pre) .start).2.started = true := by
    refine hstarts (event (uplinkStep crypto) (uplinkFinal crypto (.boot k) pre) .start) ?_ rfl
    rw [hops, uplinkTrace, List.append_assoc, trace_append]
    exact List.mem_append_right _ (List.mem_cons_self)
  have hstate : uplinkFinal crypto (.boot k) (pre++[.start]) =
      (uplinkStep crypto (uplinkFinal crypto (.boot k) pre) .start).1 := by
    rw [uplinkFinal, final_append]
    rfl
  obtain ⟨H, hheader, hH, hpull⟩ := pulling_start crypto hidle hstart
  rw [← hstate] at hheader hpull
  refine ⟨H, hheader, pullExact_run hpull hH mid hmid ?_⟩
  intro e he
  apply hcrypto e
  rw [hlater, uplinkTrace, trace_append]
  apply List.mem_append_right
  rw [trace_append]
  exact List.mem_append_left _ he

def plainCrypto (cfg : Config) (header : Buf) (h : header.length < 2^cfg.sizeBits) :
    CryptoOps cfg Unit where
  sessionStart k := (.ok, k)
  pouchStart k := (.ok, k)
  headerCreate k := (some header, k)
  -- a buffer is never longer than this
  encryptBlock k block := (if block.length < 2^cfg.sizeBits then some block else none, k)
  sessionEnd k := k
  header_lt := by
    intro k h' hh
    cases hh
    exact h
  encrypt_lt := by
    intro k b c hc
    dsimp only at hc
    split at hc
    · cases hc
      assumption
    · cases hc

def pullConfig : Config := .ofLog 9 .none
def pullCrypto : CryptoOps pullConfig Unit :=
  plainCrypto pullConfig [0x82, 0x01, 0x82, 0x00, 0x61, 0x61] (by decide)
def pullRun : List UplinkOp :=
  [.enqueue [0, 2, 0xC0, 7], .process, .fill 3, .close .ok, .process, .fill 100]

theorem uplink_pull_exact_plain :
    (∃ H, (uplinkFinal pullCrypto (.boot ()) ([]++[.start])).header = some H ∧
      PullExact pullCrypto H (uplinkFinal pullCrypto (.boot ()) ([]++[.start])) pullRun) ∧
    returnedBytes (uplinkTrace pullCrypto (.boot ()) ([]++.start :: pullRun++[.finish])) =
      [0x82, 0x01, 0x82, 0x00, 0x61, 0x61, 0, 2, 0xC0, 7] := by
  refine ⟨(uplink_pull_exact pullCrypto () ([]++.start :: pullRun++[.finish]) ?_ ?_ ?_).1 []
    pullRun [.finish] rfl ?_, rfl⟩
  · exact ⟨rfl, trivial⟩
  · simp only [uplinkTrace, pullRun, List.nil_append, List.cons_append, trace_cons, trace_nil,
      List.forall_mem_cons, event]
    simp [uplinkStep]
    rfl
  · decide
  · simp [pullRun]

end Pouch
