import Loxis.Lib.Run
import Loxis.Aarc.Worker

/-! # Quiesce tickets

`Runtime::awaitQuiesce`: a thread flushes its own batches, draws a ticket and waits; the
worker captures the tickets drawn before it starts a round and completes them after a
stable one. Producers publish any messages, and whatever else mutators do to the pool and
the table may happen at any time. What a returning call can rely on is recorded when the
call starts and when it draws its ticket.
-/

namespace Loxis.Aarc

open Function

/-- What a flush will have published of a channel once it is over. -/
def Channel.flushed (fold : Bool) (c : Channel) : List GCMessage :=
  if c.flushing then c.published else (c.beginFlush fold).published

/-- A thread's call of `awaitQuiesce`. `staged` is what the channels hold when the call
starts, as a flush publishes it; `visible` is what every producer has made visible when
the ticket is drawn. -/
inductive Call
  | idle
  | flushing (staged : ℕ → List GCMessage)
  | waiting (ticket : ℕ) (staged visible : ℕ → List GCMessage)

/-- The thread is in no call, so its mutators may run. -/
def Call.isIdle : Call → Bool
  | .idle => true
  | _ => false

/-- The thread is not blocked on a ticket, so it may flush. -/
def Call.mayFlush : Call → Bool
  | .waiting .. => false
  | _ => true

/-- Where `workerLoop` stands. -/
inductive Loop
  | capture
  | round
  | complete
  deriving DecidableEq

/-- A runtime with the threads that call `awaitQuiesce`. `swept` is what had been processed
when the latest sweep started; `cut` is the world at the cut of the latest round. -/
structure Quiesce extends World where
  cut : World
  thread : ℕ → ℕ := fun _ => 0
  call : ℕ → Call := fun _ => .idle
  quiesceIssued : ℕ := 0
  quiesceCompleted : ℕ := 0
  serveThrough : ℕ := 0
  loop : Loop := .capture
  swept : ℕ → List GCMessage := fun _ => []

inductive Quiesce.Action
  | join (τ : ℕ)
  | publish (i : ℕ) (m : GCMessage)
  | beginFlush (i : ℕ)
  | commit (i n : ℕ)
  | endFlush (i : ℕ)
  | mutate (e : AarcEngine)
  | call (τ : ℕ)
  | issue (τ : ℕ)
  | ret (τ : ℕ)
  | capture
  | work
  | complete

namespace Quiesce

variable (fold : Bool) (batchLimit : ℕ) (s : Quiesce)

def setChan (i : ℕ) (d : Channel) : Quiesce := { s with chan := update s.chan i d }

def setCall (τ : ℕ) (x : Call) : Quiesce := { s with call := update s.call τ x }

/-- `flushOwnBatches` has left no open batch of the thread. -/
def Flushed (τ : ℕ) : Prop := ∀ i < s.slots, s.thread i = τ → (s.chan i).batchN = 0

instance (τ : ℕ) : Decidable (s.Flushed τ) := inferInstanceAs (Decidable (∀ i < s.slots, _ → _))

/-- One step of a producer, of a caller of `awaitQuiesce` or of the worker. -/
def step : Action → Option Quiesce
  | .join τ =>
    if (s.call τ).isIdle then
      some { s with toWorld := s.toWorld.join, thread := update s.thread s.slots τ }
    else none
  | .publish i m =>
    if i < s.slots ∧ (s.call (s.thread i)).isIdle ∧ (s.chan i).flushing = false ∧
        (s.chan i).batchN < batchLimit then
      some (s.setChan i ((s.chan i).publish m))
    else none
  | .beginFlush i =>
    if i < s.slots ∧ (s.call (s.thread i)).mayFlush ∧ (s.chan i).flushing = false ∧
        (s.chan i).batchN ≠ 0 then
      some (s.setChan i ((s.chan i).beginFlush fold))
    else none
  | .commit i n =>
    if i < s.slots ∧ (s.call (s.thread i)).mayFlush ∧
        (fold = true → (s.chan i).flushing = true) then
      some (s.setChan i ((s.chan i).commit n))
    else none
  | .endFlush i =>
    if i < s.slots ∧ (s.call (s.thread i)).mayFlush ∧ (s.chan i).flushing = true ∧
        (s.chan i).staged = [] then
      some (s.setChan i (s.chan i).endFlush)
    else none
  | .mutate e => some { s with eng := e }
  | .call τ =>
    if (s.call τ).isIdle then
      some (s.setCall τ (.flushing fun i => (s.chan i).flushed fold))
    else none
  | .issue τ =>
    match s.call τ with
    | .flushing x =>
      if s.Flushed τ then
        some { s.setCall τ (.waiting (s.quiesceIssued + 1) x fun i => (s.chan i).log) with
               quiesceIssued := s.quiesceIssued + 1 }
      else none
    | _ => none
  | .ret τ =>
    match s.call τ with
    | .waiting ticket _ _ =>
      if ticket ≤ s.quiesceCompleted then some (s.setCall τ .idle) else none
    | _ => none
  | .capture =>
    if s.loop = .capture then some { s with serveThrough := s.quiesceIssued, loop := .round }
    else none
  | .work =>
    if s.loop ≠ .round then none
    else if s.round.phase ≠ .reclaim then
      some { s with
             toWorld := s.toWorld.work
             cut := if s.toWorld.work.round.phase = .tails 0 then s.toWorld else s.cut }
    else
      some { s with
             toWorld := s.toWorld.work
             loop := if s.round.stable then .complete else .capture
             swept := if s.round.stable then fun i => (s.chan i).popped else s.swept }
  | .complete =>
    if s.loop = .complete then
      some { s with
             quiesceCompleted := max s.quiesceCompleted s.serveThrough
             loop := .capture }
    else none

/-- A runtime without producers. -/
def init (e : AarcEngine) : Quiesce := { eng := e, cut := { eng := e } }

/-- The runs of a runtime, whatever its pool holds. -/
def system : System Quiesce Action := .ofStep (∃ e, · = init e) (step fold batchLimit)

variable {fold batchLimit} {s t : Quiesce} {a : Action} {c d : Channel} {i n τ : ℕ} {m : GCMessage}

section Flushed

theorem flushed_of_batchN (h : c.Ok) (h0 : c.batchN = 0) : c.flushed fold = c.log := by
  have hs := h.staged h0
  have hf : c.flushing = false := Bool.eq_false_iff.mpr fun hf => h.flushing hf h0
  cases fold <;> simp [Channel.flushed, hf, Channel.beginFlush, Channel.published, hs, folded,
    foldedUpTo, keptAfter]

theorem flushed_beginFlush (hf : c.flushing = false) :
    (c.beginFlush fold).flushed fold = c.flushed fold := by
  simp [Channel.flushed, hf, Channel.beginFlush]

theorem flushed_commit (hf : fold = true → c.flushing = true) :
    (c.commit n).flushed fold = c.flushed fold := by
  unfold Channel.flushed
  cases hc : c.flushing with
  | true =>
    rw [if_pos (show (c.commit n).flushing = true from hc), if_pos rfl, Channel.published_commit]
  | false =>
    cases fold with
    | true => rw [hf rfl] at hc; cases hc
    | false =>
      rw [if_neg (by simp [Channel.commit, hc]), if_neg (by simp)]
      exact Channel.published_commit

theorem flushed_endFlush (h : c.Ok) (hf : c.flushing = true) (hs : c.staged = []) :
    c.endFlush.flushed fold = c.flushed fold := by
  rw [flushed_of_batchN (h.endFlush hf hs) rfl, Channel.flushed, if_pos hf, Channel.published, hs,
    List.append_nil]
  rfl

end Flushed

/-- What a call of `awaitQuiesce` is owed, as far as it has got. -/
def CallOk (fold : Bool) (s : Quiesce) (τ : ℕ) : Call → Prop
  | .idle => True
  | .flushing x => ∀ i, i < s.slots → s.thread i = τ → (s.chan i).flushed fold = x i
  | .waiting k x y => k ≤ s.quiesceIssued ∧ (∀ i, y i <+: (s.chan i).log) ∧
      (∀ i, i < s.slots → s.thread i = τ → x i <+: y i) ∧
      (k ≤ s.quiesceCompleted → ∀ i, y i <+: s.swept i) ∧
      (k ≤ s.serveThrough → s.loop = .complete → ∀ i, y i <+: s.swept i) ∧
      (k ≤ s.serveThrough → s.loop = .round → ∀ i, s.round.phase.AfterCut →
        y i <+: (s.cut.chan i).log)

/-- What a call is owed depends on the channels and the counters alone. -/
theorem CallOk.of_eq {x : Call} (h : s.CallOk fold τ x) (hw : t.toWorld = s.toWorld)
    (hcut : t.cut = s.cut) (hth : t.thread = s.thread) (hi : s.quiesceIssued ≤ t.quiesceIssued)
    (hd : t.quiesceCompleted = s.quiesceCompleted) (hsv : t.serveThrough = s.serveThrough)
    (hl : t.loop = s.loop) (hsw : t.swept = s.swept) : t.CallOk fold τ x := by
  unfold CallOk at *
  rw [hw, hcut, hth, hd, hsv, hl, hsw]
  cases x with
  | idle => trivial
  | flushing x => exact h
  | waiting k x y => exact ⟨h.1.trans hi, h.2⟩

/-- What every run keeps. -/
structure Inv (fold : Bool) (s : Quiesce) : Prop where
  ok : s.toWorld.Ok
  cutOk : s.cut.Ok
  round : s.toWorld.RoundOk s.cut
  rest : s.loop ≠ .round → s.round.phase = .idle
  serve : s.serveThrough ≤ s.quiesceIssued
  completed : s.quiesceCompleted ≤ s.quiesceIssued
  swept : ∀ i, s.swept i <+: (s.chan i).popped
  calls : ∀ τ, s.CallOk fold τ (s.call τ)

theorem init_inv (e : AarcEngine) : (init e).Inv fold := by
  have hok : World.Ok { eng := e } :=
    ⟨fun _ => Channel.init_ok, fun _ _ => rfl, rfl, rfl, le_rfl⟩
  exact ⟨hok, hok, trivial, fun _ => rfl, le_rfl, le_rfl, fun _ => List.nil_prefix, fun _ => trivial⟩

/-- A move inside one channel keeps what every call is owed. -/
theorem Inv.setChan (h : s.Inv fold) (hi : i < s.slots) (hd : d.Ok)
    (hhead : d.head = (s.chan i).head) (hlater : ∀ c, Channel.Later c (s.chan i) → Channel.Later c d)
    (hfl : ∀ x, s.call (s.thread i) = .flushing x → d.flushed fold = (s.chan i).flushed fold) :
    (s.setChan i d).Inv fold := by
  have hlog : (s.chan i).log <+: d.log := (hlater _ (.refl (h.ok.chan i))).log
  have hpop : d.popped = (s.chan i).popped := by
    obtain ⟨l, hl⟩ := hlog
    rw [Channel.popped, Channel.popped, hhead, ← hl,
      List.take_append_of_le_length (h.ok.chan i).head_le]
  have hgrow : ∀ j, (s.chan j).log <+: ((s.setChan i d).chan j).log := fun j => by
    unfold Quiesce.setChan
    by_cases hj : j = i
    · subst hj
      simpa using hlog
    · simp [hj]
  have hcalm : s.toWorld.Calm (s.setChan i d).toWorld := by
    unfold Quiesce.setChan
    refine ⟨rfl, le_rfl, fun j => ?_, fun j x hx => ?_⟩
    · by_cases hj : j = i
      · subst hj
        simpa using hhead
      · simp [hj]
    · by_cases hj : j = i
      · subst hj
        simpa using hlater x hx
      · simpa [hj] using hx
  constructor
  · unfold Quiesce.setChan
    refine ⟨fun j => ?_, fun j hj => ?_, h.ok.epoch, h.ok.round, h.ok.round_le⟩
    · by_cases hj : j = i
      · subst hj
        simpa using hd
      · simpa [hj] using h.ok.chan j
    · have : j ≠ i := by rintro rfl; exact absurd hi (not_lt.mpr hj)
      simpa [this] using h.ok.unused j hj
  · exact h.cutOk
  · exact h.round.calm h.ok hcalm
  · exact h.rest
  · exact h.serve
  · exact h.completed
  · intro j
    unfold Quiesce.setChan
    by_cases hj : j = i
    · subst hj
      simpa [hpop] using h.swept j
    · simpa [hj] using h.swept j
  · intro τ
    have hτ := h.calls τ
    change CallOk fold (s.setChan i d) τ (s.call τ)
    cases hc : s.call τ with
    | idle => trivial
    | flushing x =>
      rw [hc] at hτ
      intro j hj ht
      rw [← hτ j hj ht]
      unfold Quiesce.setChan
      by_cases hji : j = i
      · subst hji
        simpa using hfl x (by rw [← hc]; exact congrArg s.call ht)
      · simp [hji]
    | waiting k x y =>
      rw [hc] at hτ
      obtain ⟨h1, h2, h3, h4, h5, h6⟩ := hτ
      exact ⟨h1, fun j => (h2 j).trans (hgrow j), h3, h4, h5, h6⟩

/-- The worker's steps up to the sweep keep what every call is owed. -/
theorem Inv.look (h : s.Inv fold) (hl : s.loop = .round) (hp : s.round.phase ≠ .reclaim) :
    Inv fold { s with
      toWorld := s.toWorld.work
      cut := if s.toWorld.work.round.phase = .tails 0 then s.toWorld else s.cut } := by
  have hchan := s.toWorld.work_chan
  have hslots := s.toWorld.work_slots
  have hpopped : ∀ j, (s.chan j).popped <+: (s.toWorld.work.chan j).popped := by
    intro j
    rcases s.toWorld.work_cases with ⟨r, hw, -⟩ | ⟨i, m, -, -, -, hn, hw⟩ | ⟨hr, -, -⟩
    · rw [hw]
    · rw [hw]
      by_cases hj : j = i
      · subst hj
        simp only [World.drain, update_self]
        rw [Channel.popped_pop hn]
        exact List.prefix_append _ _
      · simp [World.drain, hj]
    · exact absurd hr hp
  constructor
  · exact h.ok.work
  · change World.Ok (if _ then _ else _)
    split
    · exact h.ok
    · exact h.cutOk
  · exact h.round.work h.ok h.cutOk
  · exact fun hne => absurd hl hne
  · exact h.serve
  · exact h.completed
  · exact fun j => (h.swept j).trans (hpopped j)
  · intro τ
    have hτ := h.calls τ
    change CallOk fold _ τ (s.call τ)
    cases hc : s.call τ with
    | idle => trivial
    | flushing x =>
      rw [hc] at hτ
      intro j hj ht
      rw [← hτ j (hslots.1 ▸ hj) ht]
      obtain ⟨h1, h2, h3, -⟩ := hchan j
      unfold Channel.flushed Channel.beginFlush Channel.published
      simp only [h1, h2, h3]
    | waiting k x y =>
      rw [hc] at hτ
      obtain ⟨h1, h2, h3, h4, h5, h6⟩ := hτ
      refine ⟨h1, fun j => ?_, fun j hj ht => h3 j (hslots.1 ▸ hj) ht, h4, h5, fun hk _ j ha => ?_⟩
      · rw [(hchan j).1]
        exact h2 j
      · change y j <+: ((if _ then _ else _ : World).chan j).log
        split
        · exact h2 j
        · next h0 => exact h6 hk hl j (World.afterCut_of_work ha h0)

/-- The end of a round: a stable one has processed all that the tickets it serves are owed. -/
theorem Inv.sweep (h : s.Inv fold) (hl : s.loop = .round) (hp : s.round.phase = .reclaim) :
    Inv fold { s with
      toWorld := s.toWorld.work
      loop := if s.round.stable then .complete else .capture
      swept := if s.round.stable then fun i => (s.chan i).popped else s.swept } := by
  have hw : ∃ e r, s.toWorld.work = { s.toWorld with eng := e, round := r } ∧ r.phase = .idle := by
    refine ⟨_, _, by simp only [World.work, hp]; rfl, rfl⟩
  obtain ⟨e, r, hw, hr⟩ := hw
  have hok := h.ok.work
  rw [hw] at hok ⊢
  constructor
  · exact hok
  · exact h.cutOk
  · simp only [World.RoundOk, hr]
  · exact fun _ => hr
  · exact h.serve
  · exact h.completed
  · intro j
    change (if _ then _ else _ : ℕ → List GCMessage) j <+: _
    split
    · exact List.prefix_rfl
    · exact h.swept j
  · intro τ
    have hτ := h.calls τ
    change CallOk fold _ τ (s.call τ)
    cases hc : s.call τ with
    | idle => trivial
    | flushing x =>
      rw [hc] at hτ
      exact hτ
    | waiting k x y =>
      rw [hc] at hτ
      obtain ⟨h1, h2, h3, h4, h5, h6⟩ := hτ
      refine ⟨h1, h2, h3, fun hk j => ?_, fun hk hl' j => ?_, fun _ hl' => ?_⟩
      · change y j <+: (if _ then _ else _ : ℕ → List GCMessage) j
        split
        · exact (h4 hk j).trans (h.swept j)
        · exact h4 hk j
      · change y j <+: (if _ then _ else _ : ℕ → List GCMessage) j
        cases hs : s.round.stable with
        | false => simp [hs] at hl'
        | true =>
          simp only [if_true]
          rw [h.round.popped_eq hp hs j]
          exact (h6 hk hl j (hp ▸ trivial)).trans (List.prefix_append _ _)
      · change (if s.round.stable = true then Loop.complete else Loop.capture) = .round at hl'
        split at hl' <;> cases hl'

theorem Inv.join (h : s.Inv fold) (hτ : s.call τ = .idle) :
    Inv fold { s with toWorld := s.toWorld.join, thread := update s.thread s.slots τ } := by
  have hcalm : s.toWorld.Calm s.toWorld.join :=
    ⟨rfl, Nat.le_succ _, fun _ => rfl, fun _ _ => id⟩
  constructor
  · exact ⟨h.ok.chan, fun j hj => h.ok.unused j (Nat.le_of_succ_le hj),
      congrArg (· + 1) h.ok.epoch, h.ok.round, h.ok.round_le.trans (Nat.le_succ _)⟩
  · exact h.cutOk
  · exact h.round.calm h.ok hcalm
  · exact h.rest
  · exact h.serve
  · exact h.completed
  · exact h.swept
  · intro σ
    have hσ := h.calls σ
    change CallOk fold _ σ (s.call σ)
    -- the new slot belongs to a thread that is in no call
    have hown : ∀ {P : ℕ → Prop}, s.call σ ≠ .idle →
        (∀ j, j < s.slots → s.thread j = σ → P j) →
        ∀ j, j < s.slots + 1 → update s.thread s.slots τ j = σ → P j := by
      intro P hne hP j hj ht
      by_cases hj' : j = s.slots
      · subst hj'
        rw [update_self] at ht
        exact absurd (ht ▸ hτ) hne
      · rw [update_of_ne hj'] at ht
        exact hP j (by omega) ht
    cases hc : s.call σ with
    | idle => trivial
    | flushing x =>
      rw [hc] at hσ
      exact hown (by simp [hc]) hσ
    | waiting k x y =>
      rw [hc] at hσ
      obtain ⟨h1, h2, h3, h4, h5, h6⟩ := hσ
      exact ⟨h1, h2, hown (by simp [hc]) h3, h4, h5, h6⟩

/-- A change of one call concerns no other. -/
theorem Inv.setCall {x : Call} (h : s.Inv fold) (hx : s.CallOk fold τ x) :
    (s.setCall τ x).Inv fold := by
  refine ⟨h.ok, h.cutOk, h.round, h.rest, h.serve, h.completed, h.swept, fun σ => ?_⟩
  by_cases hσ : σ = τ
  · subst hσ
    simp only [Quiesce.setCall, update_self]
    exact hx.of_eq rfl rfl rfl le_rfl rfl rfl rfl rfl
  · simp only [Quiesce.setCall, update_of_ne hσ]
    exact (h.calls σ).of_eq rfl rfl rfl le_rfl rfl rfl rfl rfl

/-- A new ticket is newer than every ticket completed or being served. -/
theorem Inv.issue {x : ℕ → List GCMessage} (h : s.Inv fold) (hc : s.call τ = .flushing x)
    (hf : s.Flushed τ) :
    Inv fold { s.setCall τ (.waiting (s.quiesceIssued + 1) x fun i => (s.chan i).log) with
               quiesceIssued := s.quiesceIssued + 1 } := by
  refine ⟨h.ok, h.cutOk, h.round, h.rest, h.serve.trans (Nat.le_succ _),
    h.completed.trans (Nat.le_succ _), h.swept, fun σ => ?_⟩
  by_cases hσ : σ = τ
  · subst hσ
    have hx := h.calls σ
    rw [hc] at hx
    simp only [Quiesce.setCall, update_self]
    refine ⟨le_rfl, fun _ => List.prefix_rfl, fun j hj ht => ?_, fun hk => ?_, fun hk => ?_,
      fun hk => ?_⟩
    · rw [← hx j hj ht, flushed_of_batchN (h.ok.chan j) (hf j hj ht)]
    · exact absurd (hk.trans h.completed) (by simp)
    · exact absurd (hk.trans h.serve) (by simp)
    · exact absurd (hk.trans h.serve) (by simp)
  · simp only [Quiesce.setCall, update_of_ne hσ]
    exact (h.calls σ).of_eq rfl rfl rfl (Nat.le_succ _) rfl rfl rfl rfl

theorem Inv.capture (h : s.Inv fold) (hl : s.loop = .capture) :
    Inv fold { s with serveThrough := s.quiesceIssued, loop := .round } := by
  have hidle := h.rest (by simp [hl])
  refine ⟨h.ok, h.cutOk, h.round, fun hne => absurd rfl hne, le_rfl, h.completed, h.swept,
    fun σ => ?_⟩
  have hσ := h.calls σ
  change CallOk fold _ σ (s.call σ)
  cases hc : s.call σ with
  | idle => trivial
  | flushing x =>
    rw [hc] at hσ
    exact hσ
  | waiting k x y =>
    rw [hc] at hσ
    obtain ⟨h1, h2, h3, h4, -, -⟩ := hσ
    refine ⟨h1, h2, h3, h4, fun _ hl => (by cases hl), fun _ _ j ha => ?_⟩
    have ha : s.round.phase.AfterCut := ha
    rw [hidle] at ha
    exact ha.elim

theorem Inv.complete (h : s.Inv fold) (hl : s.loop = .complete) :
    Inv fold { s with
      quiesceCompleted := max s.quiesceCompleted s.serveThrough, loop := .capture } := by
  refine ⟨h.ok, h.cutOk, h.round, fun _ => h.rest (by simp [hl]), h.serve,
    max_le h.completed h.serve, h.swept, fun σ => ?_⟩
  have hσ := h.calls σ
  change CallOk fold _ σ (s.call σ)
  cases hc : s.call σ with
  | idle => trivial
  | flushing x =>
    rw [hc] at hσ
    exact hσ
  | waiting k x y =>
    rw [hc] at hσ
    obtain ⟨h1, h2, h3, h4, h5, -⟩ := hσ
    refine ⟨h1, h2, h3, fun hk => ?_, fun _ hl => (by cases hl), fun _ hl => (by cases hl)⟩
    rcases le_max_iff.mp hk with hk | hk
    · exact h4 hk
    · exact h5 hk hl

theorem isIdle_iff {x : Call} : x.isIdle = true ↔ x = .idle := by
  cases x <;> simp [Call.isIdle]

theorem Inv.step (h : s.Inv fold) (hs : step fold batchLimit s a = some t) : t.Inv fold := by
  cases a with
  | join τ =>
    simp only [Quiesce.step, Option.ite_none_right_eq_some] at hs
    obtain ⟨hτ, ⟨⟩⟩ := hs
    exact h.join (isIdle_iff.mp hτ)
  | publish i m =>
    simp only [Quiesce.step, Option.ite_none_right_eq_some] at hs
    obtain ⟨⟨hi, hc, hf, -⟩, ⟨⟩⟩ := hs
    refine h.setChan hi (h.ok.chan _).publish rfl (fun _ => .publish) fun x hx => ?_
    rw [isIdle_iff.mp hc] at hx
    cases hx
  | beginFlush i =>
    simp only [Quiesce.step, Option.ite_none_right_eq_some] at hs
    obtain ⟨⟨hi, -, hf, h0⟩, ⟨⟩⟩ := hs
    exact h.setChan hi ((h.ok.chan _).beginFlush h0) rfl (fun _ => .beginFlush) fun _ _ =>
      flushed_beginFlush hf
  | commit i n =>
    simp only [Quiesce.step, Option.ite_none_right_eq_some] at hs
    obtain ⟨⟨hi, -, hf⟩, ⟨⟩⟩ := hs
    exact h.setChan hi (h.ok.chan _).commit rfl (fun _ hx => hx.commit (h.ok.chan _)) fun _ _ =>
      flushed_commit hf
  | endFlush i =>
    simp only [Quiesce.step, Option.ite_none_right_eq_some] at hs
    obtain ⟨⟨hi, -, hf, hs⟩, ⟨⟩⟩ := hs
    exact h.setChan hi ((h.ok.chan _).endFlush hf hs) rfl (fun _ => .endFlush) fun _ _ =>
      flushed_endFlush (h.ok.chan _) hf hs
  | mutate e =>
    obtain rfl := Option.some.inj hs
    have hcalm : s.toWorld.Calm { s.toWorld with eng := e } :=
      ⟨rfl, le_rfl, fun _ => rfl, fun _ _ => id⟩
    exact ⟨⟨h.ok.chan, h.ok.unused, h.ok.epoch, h.ok.round, h.ok.round_le⟩, h.cutOk,
      h.round.calm h.ok hcalm, h.rest, h.serve, h.completed, h.swept, h.calls⟩
  | call τ =>
    simp only [Quiesce.step, Option.ite_none_right_eq_some] at hs
    obtain ⟨-, ⟨⟩⟩ := hs
    exact h.setCall fun _ _ _ => rfl
  | issue τ =>
    simp only [Quiesce.step] at hs
    split at hs
    · next x hc =>
      simp only [Option.ite_none_right_eq_some] at hs
      obtain ⟨hf, ⟨⟩⟩ := hs
      exact h.issue hc hf
    · cases hs
  | ret τ =>
    simp only [Quiesce.step] at hs
    split at hs
    · simp only [Option.ite_none_right_eq_some] at hs
      obtain ⟨-, ⟨⟩⟩ := hs
      exact h.setCall trivial
    · cases hs
  | capture =>
    simp only [Quiesce.step, Option.ite_none_right_eq_some] at hs
    obtain ⟨hl, ⟨⟩⟩ := hs
    exact h.capture hl
  | work =>
    simp only [Quiesce.step] at hs
    split at hs
    · cases hs
    · next hl =>
      split at hs
      · next hp =>
        obtain rfl := Option.some.inj hs
        exact h.look (not_not.mp hl) hp
      · next hp =>
        obtain rfl := Option.some.inj hs
        exact h.sweep (not_not.mp hl) (not_not.mp hp)
  | complete =>
    simp only [Quiesce.step, Option.ite_none_right_eq_some] at hs
    obtain ⟨hl, ⟨⟩⟩ := hs
    exact h.complete hl

end Quiesce

end Loxis.Aarc
