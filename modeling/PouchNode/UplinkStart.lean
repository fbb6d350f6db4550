import PouchNode.UplinkPull

/-! The start of a session, step by step. SESSION_ACTIVE is set before there is a header, so
a run of process_blocks can get in between. -/
namespace Pouch
open Machine
variable {κ : Type*} {cfg : Config}

inductive StartPhase where
  | idle | active | session | pouch
  deriving DecidableEq, Repr

/- A call of buf_queue_submit in process_blocks: the header stored in a session, or a block. -/
inductive Submitted where
  | header (session : Nat) (buf : Buf)
  | block (buf : Buf)
  deriving DecidableEq, Repr

def Submitted.buf : Submitted → Buf
  | .header _ buf => buf
  | .block buf => buf

/- The uplink with the start that is under way. Sessions are counted from the setting of
   SESSION_ACTIVE; the log says what was submitted to the transport queue in which of them. -/
structure Starting (κ : Type*) where
  up : Uplink κ
  phase : StartPhase
  sessions : Nat
  headerFrom : Nat
  log : List (Nat × Submitted)

def Starting.boot (k : κ) : Starting κ := ⟨.boot k, .idle, 0, 0, []⟩

/- The four steps of pouch_uplink_start, and the calls of other threads and of the work
   queue at any time. The transport thread itself only goes on when the start is over. -/
inductive StartOp where
  | setActive
  | cryptoSessionStart
  | cryptoPouchStart
  | storeHeader
  | other (op : UplinkOp)

section
variable (crypto : CryptoOps cfg κ)

def loopSubmits (headerFrom : Nat) : BufQueue → Option Buf → κ → List Submitted
  | [], _, _ => []
  | block :: queue, header, k =>
    match crypto.encryptBlock k block with
    | (none, k) => loopSubmits headerFrom queue header k
    | (some encrypted, k) =>
      match header with
      | none => .block encrypted :: loopSubmits headerFrom queue none k
      | some header => .header headerFrom header :: .block encrypted :: loopSubmits headerFrom queue none k

def Starting.submits (w : Starting κ) : List Submitted :=
  if w.up.sessionActive && !w.up.pouchClosed then
    loopSubmits crypto w.headerFrom w.up.processing.queue w.up.header w.up.crypto
  else []

def Starting.fails (w : Starting κ) (k : κ) : Starting κ :=
  { w with up := { w.up with sessionActive := false, crypto := k }, phase := .idle }

def Starting.proceeds (w : Starting κ) (phase : StartPhase) (k : κ) : Starting κ :=
  { w with up := { w.up with crypto := k }, phase }

def startStep (w : Starting κ) : StartOp → Starting κ × Unit
  | .setActive =>
    if w.up.sessionActive then (w, ())
    else
      ({ w with up := { w.up with sessionActive := true }, phase := .active
                sessions := w.sessions + 1 }, ())
  | .cryptoSessionStart =>
    if w.phase = .active then
      match crypto.sessionStart w.up.crypto with
      | (.err _, k) => (w.fails k, ())
      | (.ok, k) => (w.proceeds .session k, ())
    else (w, ())
  | .cryptoPouchStart =>
    if w.phase = .session then
      match crypto.pouchStart w.up.crypto with
      | (.err _, k) => (w.fails k, ())
      | (.ok, k) => (w.proceeds .pouch k, ())
    else (w, ())
  | .storeHeader =>
    if w.phase = .pouch then
      match crypto.headerCreate w.up.crypto with
      | (none, k) => ({ w with up := { w.up with header := none } }.fails k, ())
      | (some header, k) =>
        ({ w with
            up := { w.up with
              header := some header
              processing := { w.up.processing with
                pending := w.up.processing.pending || !w.up.processing.queue.isEmpty } }
            headerFrom := w.sessions }.proceeds .idle k, ())
    else (w, ())
  | .other op =>
    match op with
    -- made by the steps above
    | .start => (w, ())
    | .fill maxlen =>
      (if w.phase = .idle then { w with up := (uplinkStep crypto w.up (.fill maxlen)).1 } else w, ())
    | .finish =>
      (if w.phase = .idle then { w with up := (uplinkStep crypto w.up .finish).1 } else w, ())
    | .process =>
      ({ w with
          up := (uplinkStep crypto w.up .process).1
          log := w.log++(w.submits crypto).map fun b => (w.sessions, b) }, ())
    | op => ({ w with up := (uplinkStep crypto w.up op).1 }, ())

abbrev startFinal : Starting κ → List StartOp → Starting κ := final (startStep crypto)

/-- With nothing in between, the steps are pouch_uplink_start. -/
theorem startSteps_eq (w : Starting κ) (hidle : w.phase = .idle) :
    (startFinal crypto w [.setActive, .cryptoSessionStart, .cryptoPouchStart, .storeHeader]).up =
      (pouchUplinkStart crypto w.up).2 := by
  cases ha : w.up.sessionActive with
  | true => simp [startStep, pouchUplinkStart, ha, hidle]
  | false =>
    cases h1 : crypto.sessionStart w.up.crypto with
    | mk r1 k1 =>
    cases r1 with
    | err e => simp [startStep, pouchUplinkStart, ha, h1, Starting.fails]
    | ok =>
      cases h2 : crypto.pouchStart k1 with
      | mk r2 k2 =>
      cases r2 with
      | err e => simp [startStep, pouchUplinkStart, ha, h1, h2, Starting.fails, Starting.proceeds]
      | ok =>
        cases h3 : crypto.headerCreate k2 with
        | mk header k3 =>
        cases header with
        | none =>
          simp [startStep, pouchUplinkStart, ha, h1, h2, h3, Starting.fails, Starting.proceeds]
        | some H =>
          simp [startStep, pouchUplinkStart, ha, h1, h2, h3, Starting.proceeds]

def Encrypts (s : Uplink κ) : Prop :=
  s.sessionActive = true ∧ s.pouchClosed = false ∧
    (encryptBlocks crypto s.crypto s.processing.queue).1 ≠ []

end

def submittedIn (n : Nat) (log : List (Nat × Submitted)) : List Submitted :=
  (log.filter fun e => e.1 = n).map Prod.snd

/- Whatever is submitted in a session, first comes the header of this very session, and then
   there are only blocks. -/
def HeaderFirst (log : List (Nat × Submitted)) : Prop :=
  ∀ n, submittedIn n log = [] ∨
    ∃ (header : Buf) (blocks : List Buf),
      submittedIn n log = .header n header :: blocks.map .block

theorem submittedIn_append (n : Nat) (log new : List (Nat × Submitted)) :
    submittedIn n (log++new) = submittedIn n log++submittedIn n new := by
  simp [submittedIn]

theorem submittedIn_tagged (n m : Nat) (new : List Submitted) :
    submittedIn n (new.map fun b => (m, b)) = if m = n then new else [] := by
  induction new with
  | nil => simp [submittedIn]
  | cons b new ih =>
    by_cases hm : m = n
    · simp only [submittedIn, hm, if_true] at ih ⊢
      simp [ih]
    · simp [submittedIn, hm]

theorem mem_submittedIn {n : Nat} {b : Submitted} {log : List (Nat × Submitted)} :
    b ∈ submittedIn n log ↔ (n, b) ∈ log := by
  simp [submittedIn]

def HeaderSent (w : Starting κ) : Prop :=
  ∃ header, (w.sessions, .header w.sessions header) ∈ w.log

/- Where the header of the session is. During a start it is not there yet, and a header that
   is still stored is one of an earlier session. -/
structure StartInv (w : Starting κ) : Prop where
  logged : ∀ e ∈ w.log, e.1 ≤ w.sessions
  older : w.headerFrom ≤ w.sessions
  starting : w.phase ≠ .idle →
    w.up.sessionActive = true ∧ w.headerFrom < w.sessions ∧ ¬ HeaderSent w
  running : w.phase = .idle → w.up.sessionActive = true →
    (w.up.header.isSome ∧ w.headerFrom = w.sessions ∧ ¬ HeaderSent w) ∨
    (w.up.header = none ∧ HeaderSent w)

theorem startInv_boot (k : κ) : StartInv (Starting.boot k) where
  logged := by simp [Starting.boot]
  older := Nat.le_refl _
  starting := by simp [Starting.boot]
  running := by simp [Starting.boot, Uplink.boot]

section
variable (crypto : CryptoOps cfg κ)

def headerStored (headerFrom : Nat) (header : Option Buf) : List Submitted :=
  header.toList.map (.header headerFrom)

theorem loopSubmits_eq (headerFrom : Nat) (queue : BufQueue) (header : Option Buf) (k : κ) :
    loopSubmits crypto headerFrom queue header k =
      if (encryptBlocks crypto k queue).1 = [] then []
      else headerStored headerFrom header++(encryptBlocks crypto k queue).1.map .block := by
  induction queue generalizing header k with
  | nil => rfl
  | cons block queue ih =>
    cases he : crypto.encryptBlock k block with
    | mk encrypted k' =>
    cases encrypted with
    | none => simp [loopSubmits, encryptBlocks, he, ih]
    | some c =>
      have hrest : loopSubmits crypto headerFrom queue none k' =
          (encryptBlocks crypto k' queue).1.map .block := by
        rw [ih]
        by_cases hnil : (encryptBlocks crypto k' queue).1 = []
        · rw [if_pos hnil, hnil, List.map_nil]
        · rw [if_neg hnil, headerStored, Option.toList_none, List.map_nil, List.nil_append]
      cases header with
      | none => simp [loopSubmits, encryptBlocks, he, hrest, headerStored]
      | some h => simp [loopSubmits, encryptBlocks, he, hrest, headerStored]

/-- What the log is given is what a run of process_blocks adds to the transport queue. -/
theorem submits_transport (w : Starting κ) :
    (startStep crypto w (.other .process)).1.up.transport =
      w.up.transport++(w.submits crypto).map Submitted.buf := by
  cases processBlocks_cases crypto w.up with
  | inl hr =>
    obtain ⟨ha, hclosed, he⟩ := hr
    have hbufs : (loopSubmits crypto w.headerFrom w.up.processing.queue w.up.header
        w.up.crypto).map Submitted.buf =
        withHeader w.up.header (encryptBlocks crypto w.up.crypto w.up.processing.queue).1 := by
      rw [loopSubmits_eq, withHeader]
      split
      · rfl
      · simp [headerStored, Function.comp_def, Submitted.buf]
    simp [startStep, uplinkStep, he, Starting.submits, ha, hclosed, hbufs]
  | inr hr =>
    have hnone : w.submits crypto = [] := by
      rw [Starting.submits, if_neg]
      simpa using hr.1
    simp [startStep, uplinkStep, hr.2, hnone]

/-- What a run of process_blocks submits: nothing, or a header if one is stored and then
blocks. -/
theorem process_submits (w : Starting κ) :
    (¬ Encrypts crypto w.up ∧ w.submits crypto = [] ∧
      (startStep crypto w (.other .process)).1.up.header = w.up.header) ∨
    (Encrypts crypto w.up ∧
      (∃ blocks : List Buf, blocks ≠ [] ∧
        w.submits crypto = headerStored w.headerFrom w.up.header++blocks.map .block) ∧
      (startStep crypto w (.other .process)).1.up.header = none) := by
  cases processBlocks_cases crypto w.up with
  | inr hr =>
    left
    refine ⟨fun he => hr.1 ⟨he.1, he.2.1⟩, ?_, by simp [startStep, uplinkStep, hr.2]⟩
    rw [Starting.submits, if_neg]
    simpa using hr.1
  | inl hr =>
    obtain ⟨ha, hclosed, he⟩ := hr
    have hsubmits : w.submits crypto =
        loopSubmits crypto w.headerFrom w.up.processing.queue w.up.header w.up.crypto := by
      simp [Starting.submits, ha, hclosed]
    rw [hsubmits, loopSubmits_eq]
    by_cases hsent : (encryptBlocks crypto w.up.crypto w.up.processing.queue).1 = []
    · left
      refine ⟨fun he => he.2.2 hsent, if_pos hsent, ?_⟩
      simp [startStep, uplinkStep, he, headerLeft, hsent]
    · right
      refine ⟨⟨ha, hclosed, hsent⟩, ⟨_, hsent, if_neg hsent⟩, ?_⟩
      simp [startStep, uplinkStep, he, headerLeft, hsent]

/-- The headers in the log stay, and a run of process_blocks adds the one that is stored. -/
theorem headerSent_process (w : Starting κ) :
    HeaderSent (startStep crypto w (.other .process)).1 ↔
      HeaderSent w ∨
        Encrypts crypto w.up ∧ w.up.header.isSome = true ∧ w.headerFrom = w.sessions := by
  have hlog : (startStep crypto w (.other .process)).1.log =
      w.log++(w.submits crypto).map fun b => (w.sessions, b) := rfl
  have hsessions : (startStep crypto w (.other .process)).1.sessions = w.sessions := rfl
  simp only [HeaderSent, hlog, hsessions, List.mem_append, exists_or]
  refine or_congr_right ?_
  rcases process_submits crypto w with ⟨hno, hnone, -⟩ | ⟨hencrypts, ⟨blocks, -, hnew⟩, -⟩
  · simp [hnone, hno]
  · rw [hnew]
    cases hheader : w.up.header with
    | none => simp [headerStored]
    | some header => simp [headerStored, hencrypts, eq_comm]

end

structure SameLog (w t : Starting κ) : Prop where
  log : t.log = w.log
  sessions : t.sessions = w.sessions
  headerFrom : t.headerFrom = w.headerFrom

theorem StartInv.ended {w t : Starting κ} (h : StartInv w) (hlog : SameLog w t)
    (hphase : t.phase = .idle) (hactive : t.up.sessionActive = false) : StartInv t where
  logged := by
    rw [hlog.log, hlog.sessions]
    exact h.logged
  older := by
    rw [hlog.sessions, hlog.headerFrom]
    exact h.older
  starting hne := absurd hphase hne
  running _ ha := by
    rw [hactive] at ha
    cases ha

theorem StartInv.fails {w : Starting κ} (h : StartInv w) (k : κ) : StartInv (w.fails k) :=
  h.ended ⟨rfl, rfl, rfl⟩ rfl rfl

theorem StartInv.kept {w t : Starting κ} (h : StartInv w) (hlog : SameLog w t)
    (hphase : t.phase = .idle ↔ w.phase = .idle) (hheader : t.up.header = w.up.header)
    (hactive : t.up.sessionActive = w.up.sessionActive) : StartInv t where
  logged := by
    rw [hlog.log, hlog.sessions]
    exact h.logged
  older := by
    rw [hlog.sessions, hlog.headerFrom]
    exact h.older
  starting hne := by
    rw [HeaderSent, hlog.log, hlog.sessions, hlog.headerFrom, hactive]
    exact h.starting fun hidle => hne (hphase.mpr hidle)
  running hidle := by
    rw [HeaderSent, hlog.log, hlog.sessions, hlog.headerFrom, hactive, hheader]
    exact h.running (hphase.mp hidle)

section
variable (crypto : CryptoOps cfg κ)

/-- Calls other than a run of process_blocks leave the header where it is, or the session
ends. -/
theorem startStep_other (w : Starting κ) (op : UplinkOp) (hprocess : op ≠ .process) :
    SameLog w (startStep crypto w (.other op)).1 ∧
    (startStep crypto w (.other op)).1.phase = w.phase ∧
    ((startStep crypto w (.other op)).1.up.header = w.up.header ∧
        (startStep crypto w (.other op)).1.up.sessionActive = w.up.sessionActive ∨
      w.phase = .idle ∧ (startStep crypto w (.other op)).1.up.sessionActive = false) := by
  cases op with
  | enqueue block => exact ⟨⟨rfl, rfl, rfl⟩, rfl, Or.inl ⟨rfl, rfl⟩⟩
  | write op =>
    refine ⟨⟨rfl, rfl, rfl⟩, rfl, Or.inl ?_⟩
    simp [startStep, uplinkStep, uplinkEnqueueAll_eq]
  | close lock =>
    refine ⟨⟨rfl, rfl, rfl⟩, rfl, Or.inl ?_⟩
    cases hc : w.up.pouchClosing with
    | true => simp [startStep, uplinkStep, pouchUplinkClose, hc]
    | false => simp [startStep, uplinkStep, pouchUplinkClose, hc, uplinkEnqueueAll_eq]
  | process => exact absurd rfl hprocess
  | start => exact ⟨⟨rfl, rfl, rfl⟩, rfl, Or.inl ⟨rfl, rfl⟩⟩
  | fill maxlen =>
    by_cases hidle : w.phase = .idle
    · have he : (startStep crypto w (.other (.fill maxlen))).1 =
          { w with up := (uplinkStep crypto w.up (.fill maxlen)).1 } := by simp [startStep, hidle]
      rw [he]
      refine ⟨⟨rfl, rfl, rfl⟩, rfl, ?_⟩
      cases ha : w.up.sessionActive with
      | false => simp [uplinkStep, pouchUplinkFill, ha]
      | true =>
        obtain ⟨result, bytes, hfill⟩ := fillStep crypto ha maxlen
        cases hfill.ends with
        | inl hmore => exact Or.inl ⟨hfill.header, hmore.2.1⟩
        | inr hdone => exact Or.inr ⟨hidle, hdone.2.1⟩
    · have he : (startStep crypto w (.other (.fill maxlen))).1 = w := by simp [startStep, hidle]
      rw [he]
      exact ⟨⟨rfl, rfl, rfl⟩, rfl, Or.inl ⟨rfl, rfl⟩⟩
  | finish =>
    by_cases hidle : w.phase = .idle
    · have he : (startStep crypto w (.other .finish)).1 =
          { w with up := pouchUplinkFinish crypto w.up } := by simp [startStep, uplinkStep, hidle]
      rw [he]
      refine ⟨⟨rfl, rfl, rfl⟩, rfl, Or.inr ⟨hidle, ?_⟩⟩
      cases ha : w.up.sessionActive <;> simp [pouchUplinkFinish, ha, endSession]
    · have he : (startStep crypto w (.other .finish)).1 = w := by simp [startStep, hidle]
      rw [he]
      exact ⟨⟨rfl, rfl, rfl⟩, rfl, Or.inl ⟨rfl, rfl⟩⟩

theorem StartInv.process {w : Starting κ} (h : StartInv w) :
    StartInv (startStep crypto w (.other .process)).1 where
  logged e he := by
    cases List.mem_append.mp he with
    | inl hold => exact h.logged e hold
    | inr hadded =>
      obtain ⟨b, -, rfl⟩ := List.mem_map.mp hadded
      exact Nat.le_refl _
  older := h.older
  starting hphase := by
    obtain ⟨ha, hlt, hnot⟩ := h.starting hphase
    refine ⟨(uplinkStep_sessionActive crypto w.up rfl).trans ha, hlt, ?_⟩
    rw [headerSent_process]
    rintro (hsent | ⟨-, -, hfrom⟩)
    · exact hnot hsent
    · exact Nat.ne_of_lt hlt hfrom
  running hidle ha := by
    have hrunning := h.running hidle ((uplinkStep_sessionActive crypto w.up rfl).symm.trans ha)
    rw [headerSent_process]
    rcases process_submits crypto w with ⟨hno, -, hheader⟩ | ⟨hencrypts, -, hheader⟩
    · simp only [hheader, hno, false_and, or_false]
      exact hrunning
    · right
      refine ⟨hheader, ?_⟩
      rcases hrunning with ⟨hstored, hfrom, -⟩ | ⟨-, hsent⟩
      · exact Or.inr ⟨hencrypts, hstored, hfrom⟩
      · exact Or.inl hsent

theorem StartInv.called {w : Starting κ} (h : StartInv w) (call : Ret × κ) {next : StartPhase}
    (hphase : w.phase ≠ .idle) (hnext : next ≠ .idle) :
    StartInv (match call with
      | (.err _, k) => (w.fails k, ())
      | (.ok, k) => (w.proceeds next k, ())).1 := by
  obtain ⟨ret, k⟩ := call
  cases ret with
  | err e => exact h.fails k
  | ok => exact h.kept ⟨rfl, rfl, rfl⟩ (iff_of_false hnext hphase) rfl rfl

theorem startStep_inv (w : Starting κ) (op : StartOp) (h : StartInv w) :
    StartInv (startStep crypto w op).1 := by
  cases op with
  | setActive =>
    cases ha : w.up.sessionActive with
    | true => simpa [startStep, ha] using h
    | false =>
      simp only [startStep, ha]
      constructor
      · intro e he
        exact Nat.le_succ_of_le (h.logged e he)
      · exact Nat.le_succ_of_le h.older
      · intro _
        refine ⟨rfl, Nat.lt_succ_of_le h.older, ?_⟩
        rintro ⟨header, hmem⟩
        exact Nat.not_succ_le_self w.sessions (h.logged _ hmem)
      · intro hidle
        cases hidle
  | cryptoSessionStart =>
    by_cases hp : w.phase = .active
    · simp only [startStep, hp, if_true]
      exact h.called _ (by simp [hp]) (by simp)
    · simpa [startStep, hp] using h
  | cryptoPouchStart =>
    by_cases hp : w.phase = .session
    · simp only [startStep, hp, if_true]
      exact h.called _ (by simp [hp]) (by simp)
    · simpa [startStep, hp] using h
  | storeHeader =>
    by_cases hp : w.phase = .pouch
    · cases hr : crypto.headerCreate w.up.crypto with
      | mk header k =>
      cases header with
      | none =>
        simp only [startStep, hp, if_true, hr]
        exact h.ended ⟨rfl, rfl, rfl⟩ rfl rfl
      | some header =>
        simp only [startStep, hp, if_true, hr]
        have hnot := (h.starting (by simp [hp])).2.2
        constructor
        · exact h.logged
        · exact Nat.le_refl _
        · intro hne
          exact absurd rfl hne
        · intro _ _
          exact Or.inl ⟨rfl, rfl, hnot⟩
    · simpa [startStep, hp] using h
  | other op =>
    by_cases hprocess : op = .process
    · rw [hprocess]
      exact h.process crypto
    · obtain ⟨hlog, hphase, hcases⟩ := startStep_other crypto w op hprocess
      cases hcases with
      | inl hsame => exact h.kept hlog (by rw [hphase]) hsame.1 hsame.2
      | inr hend => exact h.ended hlog (hphase.trans hend.1) hend.2

theorem process_log (w : Starting κ) (n : Nat) :
    submittedIn n (startStep crypto w (.other .process)).1.log =
      submittedIn n w.log++(if w.sessions = n then w.submits crypto else []) := by
  have hlog : (startStep crypto w (.other .process)).1.log =
      w.log++(w.submits crypto).map fun b => (w.sessions, b) := rfl
  rw [hlog, submittedIn_append, submittedIn_tagged]

theorem process_after_start {w : Starting κ} (h : StartInv w) (hfirst : HeaderFirst w.log)
    (hidle : w.phase = .idle) : HeaderFirst (startStep crypto w (.other .process)).1.log := by
  intro n
  rw [process_log]
  by_cases hn : w.sessions = n
  · rw [if_pos hn]
    rcases process_submits crypto w with ⟨-, hnone, -⟩ | ⟨hencrypts, ⟨blocks, -, hnew⟩, -⟩
    · rw [hnone, List.append_nil]
      exact hfirst n
    · right
      rw [hnew]
      rcases h.running hidle hencrypts.1 with ⟨hstored, hfrom, hnot⟩ | ⟨hnone, header, hmem⟩
      · -- the header has not been submitted, so nothing has
        have hbefore : submittedIn n w.log = [] := by
          rcases hfirst n with hnil | ⟨header, old, hold⟩
          · exact hnil
          · refine absurd ⟨header, mem_submittedIn.mp ?_⟩ hnot
            rw [hn, hold]
            exact List.mem_cons_self
        obtain ⟨header, hheader⟩ := Option.isSome_iff_exists.mp hstored
        exact ⟨header, blocks, by simp [hbefore, headerStored, hheader, hfrom, hn]⟩
      · rcases hfirst n with hnil | ⟨header', old, hold⟩
        · rw [hn, ← mem_submittedIn, hnil] at hmem
          cases hmem
        · exact ⟨header', old++blocks, by simp [hold, headerStored, hnone]⟩
  · rw [if_neg hn, List.append_nil]
    exact hfirst n

/-- During the start, whatever a run of process_blocks submits has no header before it. -/
theorem process_during_start {w : Starting κ} (h : StartInv w) (hstart : w.phase ≠ .idle)
    (hencrypts : Encrypts crypto w.up) :
    ¬ HeaderFirst (startStep crypto w (.other .process)).1.log := by
  obtain ⟨-, hlt, hnot⟩ := h.starting hstart
  rcases process_submits crypto w with ⟨hno, -, -⟩ | ⟨-, ⟨blocks, hne, hnew⟩, -⟩
  · exact absurd hencrypts hno
  · intro hafter
    have hunsent : ¬ HeaderSent (startStep crypto w (.other .process)).1 := by
      rw [headerSent_process]
      rintro (hsent | ⟨-, -, hfrom⟩)
      · exact hnot hsent
      · exact Nat.ne_of_lt hlt hfrom
    rcases hafter w.sessions with hnil | ⟨header, all, hall⟩
    · rw [process_log, if_pos rfl, hnew] at hnil
      simp [hne] at hnil
    · refine hunsent ⟨header, mem_submittedIn.mp ?_⟩
      rw [show (startStep crypto w (.other .process)).1.sessions = w.sessions from rfl, hall]
      exact List.mem_cons_self

theorem startStep_headerFirst (w : Starting κ) (op : StartOp) (h : StartInv w)
    (hfirst : HeaderFirst w.log) :
    HeaderFirst (startStep crypto w op).1.log ↔
      (op = .other .process → w.phase ≠ .idle → ¬ Encrypts crypto w.up) := by
  by_cases hop : op = .other .process
  · rw [hop]
    constructor
    · exact fun hafter _ hstart hencrypts => process_during_start crypto h hstart hencrypts hafter
    · intro hwaits
      by_cases hidle : w.phase = .idle
      · exact process_after_start crypto h hfirst hidle
      · rcases process_submits crypto w with ⟨-, hnone, -⟩ | ⟨hencrypts, -, -⟩
        · intro n
          rw [process_log, hnone, ite_self, List.append_nil]
          exact hfirst n
        · exact absurd hencrypts (hwaits rfl hidle)
  · have hsame : (startStep crypto w op).1.log = w.log := by
      cases op with
      | setActive =>
        simp only [startStep]
        split <;> rfl
      | cryptoSessionStart =>
        simp only [startStep]
        split
        · split <;> rfl
        · rfl
      | cryptoPouchStart =>
        simp only [startStep]
        split
        · split <;> rfl
        · rfl
      | storeHeader =>
        simp only [startStep]
        split
        · split <;> rfl
        · rfl
      | other op => exact (startStep_other crypto w op fun he => hop (by rw [he])).1.log
    rw [hsame]
    exact ⟨fun _ he => absurd he hop, fun _ => hfirst⟩

/-- In every session of a run the header is submitted first, and once, exactly if no run of
process_blocks encrypts a block while the session is being started. -/
theorem header_first_iff (k : κ) (ops : List StartOp) :
    (∀ u v, ops = u++v → HeaderFirst (startFinal crypto (.boot k) u).log) ↔
      ∀ u v, ops = u++.other .process :: v →
        (startFinal crypto (.boot k) u).phase ≠ .idle →
          ¬ Encrypts crypto (startFinal crypto (.boot k) u).up := by
  rw [throughout_iff (startStep crypto) (A := fun _ _ => True)
    (fun w op _ => startStep_inv crypto w op) (fun w op _ => startStep_headerFirst crypto w op)
    (.boot k) (startInv_boot k) (fun _ => Or.inl rfl) ops (fun _ _ _ _ => trivial)]
  constructor
  · exact fun h u v hsplit => h u _ v hsplit rfl
  · rintro h u op v hsplit rfl
    exact h u v hsplit

end

def earlyRun : List StartOp :=
  [.setActive, .cryptoSessionStart, .cryptoPouchStart, .other (.enqueue [0, 2, 0xC0, 7]),
    .other .process, .storeHeader]

theorem early_block_before_header :
    (startFinal pullCrypto (.boot ()) earlyRun).log = [(1, .block [0, 2, 0xC0, 7])] ∧
      (startFinal pullCrypto (.boot ()) earlyRun).up.transport = [[0, 2, 0xC0, 7]] ∧
      ¬ ∀ u v, earlyRun = u++v → HeaderFirst (startFinal pullCrypto (.boot ()) u).log := by
  refine ⟨rfl, rfl, fun h => ?_⟩
  rcases h earlyRun [] (by simp) 1 with hnil | ⟨header, blocks, hheader⟩
  · cases hnil
  · cases hheader

end Pouch
