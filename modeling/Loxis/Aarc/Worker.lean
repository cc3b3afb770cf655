import Loxis.Aarc.Channel
import Loxis.Aarc.Tally

/-! # The worker

`Runtime::doRound`: read every producer's publication count, then every tail, then the
counts again, drain the queues up to the tails, and sweep when the counts were even and
did not move. One access to shared state is one step, so producers may move in between;
a sweep is one step. What a stable round has drained is what was published at the cut,
the moment it began to read the tails.
-/

namespace Loxis.Aarc

open Function

/-- Where a round stands. -/
inductive Phase
  | idle
  | refresh
  | pre (i : ℕ)
  | tails (i : ℕ)
  | post (i : ℕ)
  | check
  | drain (i : ℕ)
  | reclaim
  deriving DecidableEq

/-- The round has taken its cut and has not swept yet. -/
def Phase.AfterCut : Phase → Prop
  | .idle | .refresh | .pre _ => False
  | .tails _ | .post _ | .check | .drain _ | .reclaim => True

/-- The worker's round state. `slots` and `slotsEpoch` survive from round to round. -/
structure Round where
  phase : Phase := .idle
  slotsBefore : ℕ := 0
  slots : ℕ := 0
  slotsEpoch : ℕ := 0
  pre : ℕ → ℕ := fun _ => 0
  tail : ℕ → ℕ := fun _ => 0
  stable : Bool := true

/-- A runtime as the worker sees it. `seen` records the messages in the order in which they
were processed. -/
structure World where
  eng : AarcEngine
  chan : ℕ → Channel := fun _ => {}
  slots : ℕ := 0
  slotsEpoch : ℕ := 0
  round : Round := {}
  seen : List GCMessage := []

namespace World

variable (w : World)

/-- A producer joins. -/
def join : World := { w with slots := w.slots + 1, slotsEpoch := w.slotsEpoch + 1 }

/-- The worker pops a message and processes it. -/
def drain (i : ℕ) (m : GCMessage) : World :=
  { w with
    eng := w.eng.process m
    chan := update w.chan i (w.chan i).pop
    seen := w.seen ++ [m] }

/-- One step of `doRound`. -/
def work : World :=
  let r := w.round
  match r.phase with
  | .idle =>
    { w with round := { r with phase := .refresh, slotsBefore := w.slotsEpoch, stable := true } }
  | .refresh =>
    if r.slotsBefore ≠ r.slotsEpoch then
      { w with round := { r with phase := .pre 0, slots := w.slots, slotsEpoch := w.slotsEpoch } }
    else { w with round := { r with phase := .pre 0 } }
  | .pre i =>
    if i < r.slots then
      { w with
        round :=
          { r with
            phase := .pre (i + 1), pre := update r.pre i (w.chan i).pubSeq
            stable := r.stable && decide (Even (w.chan i).pubSeq) } }
    else { w with round := { r with phase := .tails 0 } }
  | .tails i =>
    if i < r.slots then
      { w with
        round := { r with phase := .tails (i + 1), tail := update r.tail i (w.chan i).log.length } }
    else { w with round := { r with phase := .post 0 } }
  | .post i =>
    if i < r.slots then
      { w with
        round :=
          { r with
            phase := .post (i + 1)
            stable := r.stable && decide (Even (w.chan i).pubSeq ∧ (w.chan i).pubSeq = r.pre i) } }
    else { w with round := { r with phase := .check } }
  | .check =>
    { w with
      round :=
        { r with phase := .drain 0, stable := r.stable && decide (w.slotsEpoch = r.slotsBefore) } }
  | .drain i =>
    if i < r.slots then
      match (w.chan i).next with
      | some m =>
        if (w.chan i).head < r.tail i then w.drain i m
        else { w with round := { r with phase := .drain (i + 1) } }
      | none => { w with round := { r with phase := .drain (i + 1) } }
    else { w with round := { r with phase := .reclaim } }
  | .reclaim =>
    { w with
      eng := if r.stable then w.eng.sweep else w.eng
      round := { r with phase := .idle } }

variable {w} {c w' : World} {i j : ℕ}

/-- What one step does to the engine and the queues: it only looks, it drains a message, or it
ends the round, with a sweep when the round was stable. -/
theorem work_cases (w : World) :
    (∃ r, w.work = { w with round := r } ∧ (w.round.phase = .reclaim → w.round.stable = false)) ∨
    (∃ i m, w.round.phase = .drain i ∧ i < w.round.slots ∧ (w.chan i).head < w.round.tail i ∧
      (w.chan i).next = some m ∧ w.work = w.drain i m) ∨
    (w.round.phase = .reclaim ∧ w.round.stable = true ∧
      w.work = { w with eng := w.eng.sweep, round := { w.round with phase := .idle } }) := by
  cases hp : w.round.phase with
  | idle => exact Or.inl ⟨_, by simp only [work, hp]; rfl, by simp⟩
  | refresh =>
    left
    simp only [work, hp]
    split
    · exact ⟨_, rfl, by simp⟩
    · exact ⟨_, rfl, by simp⟩
  | pre i =>
    left
    simp only [work, hp]
    split
    · exact ⟨_, rfl, by simp⟩
    · exact ⟨_, rfl, by simp⟩
  | tails i =>
    left
    simp only [work, hp]
    split
    · exact ⟨_, rfl, by simp⟩
    · exact ⟨_, rfl, by simp⟩
  | post i =>
    left
    simp only [work, hp]
    split
    · exact ⟨_, rfl, by simp⟩
    · exact ⟨_, rfl, by simp⟩
  | check => exact Or.inl ⟨_, by simp only [work, hp]; rfl, by simp⟩
  | drain i =>
    simp only [work, hp]
    split
    · next hi =>
      cases hn : (w.chan i).next with
      | none => exact Or.inl ⟨_, rfl, by simp⟩
      | some m =>
        simp only
        split
        · next ht => exact Or.inr (Or.inl ⟨i, m, rfl, hi, ht, hn, rfl⟩)
        · exact Or.inl ⟨_, rfl, by simp⟩
    · exact Or.inl ⟨_, rfl, by simp⟩
  | reclaim =>
    cases hs : w.round.stable with
    | false => exact Or.inl ⟨_, by simp only [work, hp, hs]; rfl, by simp⟩
    | true => exact Or.inr (Or.inr ⟨rfl, rfl, by simp only [work, hp, hs]; rfl⟩)

theorem afterCut_of_work (h : w.work.round.phase.AfterCut) (h0 : w.work.round.phase ≠ .tails 0) :
    w.round.phase.AfterCut := by
  cases hp : w.round.phase <;> simp only [World.work, hp] at h h0 <;> try trivial
  all_goals split at h <;> simp_all [Phase.AfterCut]

section Cut

/-- The tail that the round has read is the end of what was visible at the cut, and nothing
was staged there. -/
def Settled (w c : World) (j : ℕ) : Prop :=
  w.round.tail j = (c.chan j).log.length ∧ (c.chan j).staged = []

/-- The cut `c` lies between the first and the second look at the publication counts. -/
structure Since (w c : World) : Prop where
  later : ∀ j, Channel.Later (c.chan j) (w.chan j)
  before : w.round.slotsBefore ≤ w.round.slots
  slots : w.round.slots ≤ c.slots
  slots_le : c.slots ≤ w.slots
  pre : w.round.stable = true →
    ∀ j < w.round.slots, Even (w.round.pre j) ∧ w.round.pre j ≤ (c.chan j).pubSeq

/-- What a round has established, phase by phase. -/
def RoundOk (w c : World) : Prop :=
  match w.round.phase with
  | .idle => True
  | .refresh => w.round.slotsBefore ≤ w.slots
  | .pre i => w.round.slotsBefore ≤ w.round.slots ∧ (w.round.stable = true →
      ∀ j < i, Even (w.round.pre j) ∧ w.round.pre j ≤ (w.chan j).pubSeq)
  | .tails i => w.Since c ∧ (∀ j, (w.chan j).head = (c.chan j).head) ∧
      ∀ j < i, (c.chan j).log.length ≤ w.round.tail j ∧
        w.round.tail j ≤ (w.chan j).log.length
  | .post i => w.Since c ∧ (∀ j, (w.chan j).head = (c.chan j).head) ∧
      (∀ j < w.round.slots, (c.chan j).log.length ≤ w.round.tail j ∧
        w.round.tail j ≤ (w.chan j).log.length) ∧
      (w.round.stable = true → ∀ j < w.round.slots, j < i → w.Settled c j)
  | .check => w.Since c ∧ (∀ j, (w.chan j).head = (c.chan j).head) ∧
      (w.round.stable = true → ∀ j < w.round.slots, w.Settled c j)
  | .drain i => w.Since c ∧
      (∀ j, i < j ∨ w.round.slots ≤ j → (w.chan j).head = (c.chan j).head) ∧
      (w.round.stable = true → w.round.slots = c.slots ∧ ∀ j < w.round.slots, w.Settled c j ∧
        (j < i → (w.chan j).head = w.round.tail j) ∧ (w.chan j).head ≤ w.round.tail j)
  | .reclaim => w.Since c ∧ (w.round.stable = true →
      ∀ j, (w.chan j).popped = (c.chan j).published)

/-- What every world keeps beside the progress of the round. -/
structure Ok (w : World) : Prop where
  chan : ∀ j, (w.chan j).Ok
  unused : ∀ j, w.slots ≤ j → w.chan j = {}
  epoch : w.slotsEpoch = w.slots
  round : w.round.slots = w.round.slotsEpoch
  round_le : w.round.slotsEpoch ≤ w.slots

theorem Ok.drain {m : GCMessage} (h : w.Ok) (hi : i < w.slots) (hn : (w.chan i).next = some m) :
    (w.drain i m).Ok := by
  constructor
  · intro j
    by_cases hj : j = i
    · subst hj
      simp only [World.drain, update_self]
      exact (h.chan j).pop hn
    · simp only [World.drain, update_of_ne hj]
      exact h.chan j
  · intro j hj
    have : j ≠ i := by rintro rfl; exact absurd hi (not_lt.mpr hj)
    simp only [World.drain, update_of_ne this]
    exact h.unused j hj
  · exact h.epoch
  · exact h.round
  · exact h.round_le

theorem work_slots (w : World) : w.work.slots = w.slots ∧ w.work.slotsEpoch = w.slotsEpoch := by
  rcases w.work_cases with ⟨r, hw, -⟩ | ⟨i, m, -, -, -, -, hw⟩ | ⟨-, -, hw⟩ <;> rw [hw]
  · exact ⟨rfl, rfl⟩
  · exact ⟨rfl, rfl⟩
  · exact ⟨rfl, rfl⟩

theorem Ok.work (h : w.Ok) : w.work.Ok := by
  have hround : w.work.round.slots = w.work.round.slotsEpoch ∧
      w.work.round.slotsEpoch ≤ w.slots := by
    have h1 := h.round
    have h2 := h.round_le
    have h3 := h.epoch
    cases hp : w.round.phase <;> simp only [World.work, hp, World.drain] <;>
      (try split) <;> (try split) <;> (try split) <;>
      first | exact ⟨h1, h2⟩ | exact ⟨h3.symm, h3.le⟩
  rcases w.work_cases with ⟨r, hw, -⟩ | ⟨i, m, -, hi, -, hn, hw⟩ | ⟨-, -, hw⟩
  · rw [hw] at hround ⊢
    exact ⟨h.chan, h.unused, h.epoch, hround.1, hround.2⟩
  · rw [hw]
    exact h.drain (hi.trans_le (h.round.le.trans h.round_le)) hn
  · rw [hw] at hround ⊢
    exact ⟨h.chan, h.unused, h.epoch, hround.1, hround.2⟩

/-- A step of the worker publishes nothing. -/
theorem work_chan (w : World) (j : ℕ) : (w.work.chan j).log = (w.chan j).log ∧
    (w.work.chan j).staged = (w.chan j).staged ∧
    (w.work.chan j).flushing = (w.chan j).flushing ∧ (w.work.chan j).batchN = (w.chan j).batchN := by
  rcases w.work_cases with ⟨r, hw, -⟩ | ⟨i, m, -, -, -, -, hw⟩ | ⟨-, -, hw⟩ <;> rw [hw]
  · exact ⟨rfl, rfl, rfl, rfl⟩
  · by_cases hj : j = i
    · subst hj
      simp [World.drain, Channel.pop]
    · simp [World.drain, hj]
  · exact ⟨rfl, rfl, rfl, rfl⟩

/-- Producers move, the round does not. -/
structure Calm (w w' : World) : Prop where
  round : w'.round = w.round
  slots : w.slots ≤ w'.slots
  head : ∀ j, (w'.chan j).head = (w.chan j).head
  later : ∀ j c, Channel.Later c (w.chan j) → Channel.Later c (w'.chan j)

theorem Since.calm (h : w.Since c) (hm : w.Calm w') : w'.Since c := by
  obtain ⟨h1, h2, h3, h4, h5⟩ := h
  constructor
  · exact fun j => hm.later j _ (h1 j)
  · rw [hm.round]
    exact h2
  · rw [hm.round]
    exact h3
  · exact h4.trans hm.slots
  · rw [hm.round]
    exact h5

theorem Since.popped (h : w.Since c) (hd : (w.chan j).head = (c.chan j).log.length) :
    (w.chan j).popped = (c.chan j).log := by
  obtain ⟨t, ht⟩ := (h.later j).log
  rw [Channel.popped, hd, ← ht, List.take_left]

/-- The producers do not disturb what a round has established. -/
theorem RoundOk.calm (h : w.RoundOk c) (hok : w.Ok) (hm : w.Calm w') : w'.RoundOk c := by
  have hself : ∀ j, Channel.Later (w.chan j) (w'.chan j) := fun j =>
    hm.later j _ (.refl (hok.chan j))
  have hlen : ∀ j, (w.chan j).log.length ≤ (w'.chan j).log.length := fun j =>
    (hself j).log.length_le
  unfold RoundOk Settled at *
  rw [hm.round]
  cases hp : w.round.phase with
  | idle => trivial
  | refresh =>
    rw [hp] at h
    exact le_trans h hm.slots
  | pre i =>
    rw [hp] at h
    refine ⟨h.1, fun hs j hj => ?_⟩
    obtain ⟨he, hle⟩ := h.2 hs j hj
    exact ⟨he, hle.trans (hself j).seq⟩
  | tails i =>
    rw [hp] at h
    obtain ⟨hsince, hhead, htail⟩ := h
    refine ⟨hsince.calm hm, fun j => (hm.head j).trans (hhead j), fun j hj => ?_⟩
    exact ⟨(htail j hj).1, (htail j hj).2.trans (hlen j)⟩
  | post i =>
    rw [hp] at h
    obtain ⟨hsince, hhead, htail, hset⟩ := h
    refine ⟨hsince.calm hm, fun j => (hm.head j).trans (hhead j), fun j hj => ?_, hset⟩
    exact ⟨(htail j hj).1, (htail j hj).2.trans (hlen j)⟩
  | check =>
    rw [hp] at h
    obtain ⟨hsince, hhead, hset⟩ := h
    exact ⟨hsince.calm hm, fun j => (hm.head j).trans (hhead j), hset⟩
  | drain i =>
    rw [hp] at h
    obtain ⟨hsince, hhead, hset⟩ := h
    refine ⟨hsince.calm hm, fun j hj => (hm.head j).trans (hhead j hj), fun hs => ?_⟩
    obtain ⟨heq, hset⟩ := hset hs
    refine ⟨heq, fun j hj => ?_⟩
    rw [hm.head j]
    exact hset j hj
  | reclaim =>
    rw [hp] at h
    refine ⟨h.1.calm hm, fun hs j => ?_⟩
    rw [← h.2 hs j]
    obtain ⟨t, ht⟩ := (hself j).log
    rw [Channel.popped, Channel.popped, hm.head j, ← ht,
      List.take_append_of_le_length (hok.chan j).head_le]

/-- Each step of the round establishes what its next phase needs. The cut is taken when the
round turns to the tails. -/
theorem RoundOk.work (h : w.RoundOk c) (hok : w.Ok) (hc : c.Ok) :
    w.work.RoundOk (if w.work.round.phase = .tails 0 then w else c) := by
  cases hp : w.round.phase with
  | idle =>
    simp only [World.work, hp]
    exact hok.epoch.le
  | refresh =>
    simp only [RoundOk, hp] at h
    simp only [World.work, hp]
    split
    · exact ⟨h, by simp⟩
    · next he =>
      refine ⟨?_, by simp⟩
      rw [hok.round]
      exact (not_not.mp he).le
  | pre i =>
    simp only [RoundOk, hp] at h
    simp only [World.work, hp]
    split
    · refine ⟨h.1, fun hs j hj => ?_⟩
      simp only [Bool.and_eq_true, decide_eq_true_eq] at hs
      by_cases hji : j = i
      · subst hji
        simpa using hs.2
      · simp only [update_of_ne hji]
        exact h.2 hs.1 j (by omega)
    · next hi =>
      refine ⟨⟨fun j => .refl (hok.chan j), h.1, ?_, le_rfl, fun hs j hj => ?_⟩,
        fun _ => rfl, by simp⟩
      · exact hok.round.le.trans hok.round_le
      · have hj : j < w.round.slots := hj
        exact h.2 hs j (by omega)
  | tails i =>
    simp only [RoundOk, hp] at h
    obtain ⟨hsince, hhead, htail⟩ := h
    simp only [World.work, hp]
    split
    · refine ⟨⟨hsince.later, hsince.before, hsince.slots, hsince.slots_le, hsince.pre⟩,
        hhead, fun j hj => ?_⟩
      by_cases hji : j = i
      · subst hji
        simp only [update_self]
        exact ⟨(hsince.later j).log.length_le, le_rfl⟩
      · simp only [update_of_ne hji]
        exact htail j (by omega)
    · next hi =>
      refine ⟨⟨hsince.later, hsince.before, hsince.slots, hsince.slots_le, hsince.pre⟩,
        hhead, fun j hj => ?_, by simp⟩
      have hj : j < w.round.slots := hj
      exact htail j (by omega)
  | post i =>
    simp only [RoundOk, hp] at h
    obtain ⟨hsince, hhead, htail, hset⟩ := h
    simp only [World.work, hp]
    split
    · next hi =>
      refine ⟨⟨hsince.later, hsince.before, hsince.slots, hsince.slots_le, fun hs => ?_⟩,
        hhead, htail, fun hs j hj hji => ?_⟩
      · exact hsince.pre ((Bool.and_eq_true _ _).mp hs).1
      · simp only [Bool.and_eq_true, decide_eq_true_eq] at hs
        obtain ⟨hs, -, hsame⟩ := hs
        by_cases hj' : j = i
        · -- the count did not move, so nothing was staged or published across the cut
          subst hj'
          obtain ⟨heven, hle⟩ := hsince.pre hs j hj
          have hseq := (hsince.later j).seq
          have heq : (c.chan j).pubSeq = w.round.pre j := by omega
          obtain ⟨hlog, hstaged⟩ := (hsince.later j).still (heq ▸ heven) (by omega)
          obtain ⟨h1, h2⟩ := htail j hj
          rw [hlog] at h2
          exact ⟨le_antisymm h2 h1, hstaged⟩
        · exact hset hs j hj (by omega)
    · next hi =>
      refine ⟨⟨hsince.later, hsince.before, hsince.slots, hsince.slots_le, hsince.pre⟩,
        hhead, fun hs j hj => hset hs j hj ?_⟩
      have hj : j < w.round.slots := hj
      omega
  | check =>
    simp only [RoundOk, hp] at h
    obtain ⟨hsince, hhead, hset⟩ := h
    simp only [World.work, hp]
    refine ⟨⟨hsince.later, hsince.before, hsince.slots, hsince.slots_le, fun hs => ?_⟩,
      fun j _ => hhead j, fun hs => ?_⟩
    · exact hsince.pre ((Bool.and_eq_true _ _).mp hs).1
    · simp only [Bool.and_eq_true, decide_eq_true_eq] at hs
      obtain ⟨hs, he⟩ := hs
      refine ⟨?_, fun j hj => ⟨hset hs j hj, by simp, ?_⟩⟩
      · have h1 := hsince.before
        have h2 := hsince.slots
        have h3 := hsince.slots_le
        have h4 := hok.epoch
        change w.round.slots = c.slots
        omega
      · have h1 := (hset hs j hj).1
        have h2 := (hc.chan j).head_le
        change (w.chan j).head ≤ w.round.tail j
        rw [hhead j, h1]
        exact h2
  | drain i =>
    simp only [RoundOk, hp] at h
    obtain ⟨hsince, hhead, hset⟩ := h
    -- a queue is left when it is drained up to its tail
    have hleave : ∀ n, n = i + 1 →
        (w.round.stable = true → i < w.round.slots → w.round.tail i ≤ (w.chan i).head) →
        ({ w with round := { w.round with phase := .drain n } } : World).RoundOk c := by
      rintro n rfl hend
      refine ⟨⟨hsince.later, hsince.before, hsince.slots, hsince.slots_le, hsince.pre⟩,
        fun j hj => hhead j (hj.imp_left (by omega)), fun hs => ⟨(hset hs).1, fun j hj => ?_⟩⟩
      obtain ⟨h1, h2, h3⟩ := (hset hs).2 j hj
      refine ⟨h1, fun hji => ?_, h3⟩
      by_cases hj' : j = i
      · subst hj'
        exact le_antisymm h3 (hend hs hj)
      · exact h2 (by omega)
    simp only [World.work, hp]
    split
    · next hi =>
      cases hn : (w.chan i).next with
      | none =>
        refine hleave _ rfl fun hs hi => ?_
        obtain ⟨⟨ht, -⟩, -, -⟩ := (hset hs).2 i hi
        have hlen := List.getElem?_eq_none_iff.mp hn
        rw [ht]
        exact (hsince.later i).log.length_le.trans hlen
      | some m =>
        simp only
        split
        · next ht =>
          have hpop : ∀ j, j ≠ i → ((w.drain i m).chan j) = w.chan j := fun j hj =>
            update_of_ne hj _ _
          have hpopi : ((w.drain i m).chan i) = (w.chan i).pop := update_self _ _ _
          have hne : (w.drain i m).round.phase ≠ .tails 0 := by simp [World.drain, hp]
          rw [if_neg hne]
          have hr : (w.drain i m).round = w.round := rfl
          unfold RoundOk
          rw [hr, hp]
          refine ⟨⟨fun j => ?_, hsince.before, hsince.slots, hsince.slots_le, hsince.pre⟩,
            fun j hj => ?_, fun hs => ⟨(hset hs).1, fun j hj => ?_⟩⟩
          · by_cases hj : j = i
            · subst hj
              rw [hpopi]
              exact (hsince.later j).pop
            · rw [hpop j hj]
              exact hsince.later j
          · rw [hpop j (by omega)]
            exact hhead j hj
          · obtain ⟨h1, h2, h3⟩ := (hset hs).2 j hj
            by_cases hj' : j = i
            · subst hj'
              rw [hpopi]
              exact ⟨h1, fun h => absurd h (lt_irrefl _), ht⟩
            · rw [hpop j hj']
              exact ⟨h1, h2, h3⟩
        · next ht => exact hleave _ rfl fun _ _ => not_lt.mp ht
    · next hi =>
      refine ⟨⟨hsince.later, hsince.before, hsince.slots, hsince.slots_le, hsince.pre⟩,
        fun hs j => ?_⟩
      have hs : w.round.stable = true := hs
      obtain ⟨heq, hset⟩ := hset hs
      by_cases hj : j < w.round.slots
      · obtain ⟨⟨ht, hst⟩, h2, -⟩ := hset j hj
        have hd := h2 (by omega)
        change (w.chan j).popped = (c.chan j).published
        rw [hsince.popped (hd.trans ht), Channel.published, hst, List.append_nil]
      · have h0 := hc.unused j (by omega)
        have hd := hhead j (Or.inr (not_lt.mp hj))
        change (w.chan j).popped = (c.chan j).published
        rw [Channel.popped, hd, h0]
        rfl
  | reclaim =>
    simp only [World.work, hp]
    trivial

/-- What a stable round sweeps on is exactly what was published at the cut. -/
theorem RoundOk.popped_eq (h : w.RoundOk c) (hp : w.round.phase = .reclaim)
    (hs : w.round.stable = true) (j : ℕ) : (w.chan j).popped = (c.chan j).published := by
  simp only [RoundOk, hp] at h
  exact h.2 hs j

end Cut

end World

end Loxis.Aarc
