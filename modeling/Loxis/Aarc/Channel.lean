import Mathlib.Algebra.Group.Nat.Even
import Loxis.Aarc.Fold

/-! # Channels

What the worker and the producer can tell of a message path: a staged batch, a log of
the messages made visible, and how far the worker has popped it. The transport refines
it; the runtime models below are built on it.
-/

namespace Loxis.Aarc

/-- A producer's channel to the worker. `batchN` counts the messages of the open batch,
also those of it that are visible already. -/
structure Channel where
  staged : List GCMessage := []
  log : List GCMessage := []
  head : ℕ := 0
  pubSeq : ℕ := 0
  batchN : ℕ := 0
  flushing : Bool := false

namespace Channel

variable (c : Channel)

/-- Stage a message, opening the publication window with the first. -/
def publish (m : GCMessage) : Channel :=
  { c with
    staged := c.staged ++ [m], batchN := c.batchN + 1,
    pubSeq := if c.batchN = 0 then c.pubSeq + 1 else c.pubSeq }

/-- Make the first `n` staged messages visible. -/
def commit (n : ℕ) : Channel :=
  { c with staged := c.staged.drop n, log := c.log ++ c.staged.take n }

/-- Start a flush; the batch is folded when folding is on. -/
def beginFlush (fold : Bool) : Channel :=
  { c with staged := if fold then folded c.staged else c.staged, flushing := true }

/-- Close the publication window of a flushed batch. -/
def endFlush : Channel :=
  { c with batchN := 0, pubSeq := c.pubSeq + 1, flushing := false }

def pop : Channel := { c with head := c.head + 1 }

/-- The next message for the worker. -/
def next : Option GCMessage := c.log[c.head]?

/-- Messages the worker has popped. -/
def popped : List GCMessage := c.log.take c.head

/-- Everything published. -/
def published : List GCMessage := c.log ++ c.staged

/-- Nothing staged and nothing left to pop. -/
def Drained : Prop := c.staged = [] ∧ c.head = c.log.length

/-- The window of a channel: `pubSeq` is even exactly while no batch is open, an open batch
counts its staged messages, and the worker is not ahead of the log. -/
structure Ok : Prop where
  even_iff : Even c.pubSeq ↔ c.batchN = 0
  staged : c.batchN = 0 → c.staged = []
  flushing : c.flushing = true → c.batchN ≠ 0
  head_le : c.head ≤ c.log.length

/-- A later state `d` of a channel `c`. An even `pubSeq` that did not move means that nothing
was staged and nothing has been made visible since. -/
structure Later (c d : Channel) : Prop where
  seq : c.pubSeq ≤ d.pubSeq
  log : c.log <+: d.log
  head : c.head ≤ d.head
  still : Even c.pubSeq → d.pubSeq = c.pubSeq → d.log = c.log ∧ c.staged = []

section Moves

variable {c} {d : Channel} {m : GCMessage} {n : ℕ} {f : Bool}

theorem init_ok : Ok {} := by
  constructor <;> simp

theorem Ok.publish (h : c.Ok) : (c.publish m).Ok := by
  constructor
  · simp only [Channel.publish]
    split
    · next h0 => simp [Nat.even_add_one, h.even_iff, h0]
    · next h0 => simp [h.even_iff, h0]
  · simp [Channel.publish]
  · simp [Channel.publish]
  · exact h.head_le

theorem Ok.commit (h : c.Ok) : (c.commit n).Ok := by
  constructor
  · exact h.even_iff
  · intro h0
    simp [Channel.commit, h.staged h0]
  · exact h.flushing
  · simp only [Channel.commit, List.length_append]
    exact Nat.le_add_right_of_le h.head_le

theorem Ok.beginFlush (h : c.Ok) (h0 : c.batchN ≠ 0) : (c.beginFlush f).Ok := by
  constructor
  · exact h.even_iff
  · exact fun h' => absurd h' h0
  · exact fun _ => h0
  · exact h.head_le

theorem Ok.endFlush (h : c.Ok) (hf : c.flushing = true) (hs : c.staged = []) :
    c.endFlush.Ok := by
  have h0 := h.flushing hf
  constructor
  · simp [Channel.endFlush, Nat.even_add_one, h.even_iff, h0]
  · exact fun _ => hs
  · simp [Channel.endFlush]
  · exact h.head_le

theorem Ok.pop (h : c.Ok) (hn : c.next = some m) : c.pop.Ok := by
  obtain ⟨hlt, -⟩ := List.getElem?_eq_some_iff.mp hn
  exact ⟨h.even_iff, h.staged, h.flushing, hlt⟩

theorem Later.refl (h : c.Ok) : Later c c :=
  ⟨le_rfl, List.prefix_rfl, le_rfl, fun he _ => ⟨rfl, h.staged (h.even_iff.mp he)⟩⟩

theorem Later.publish (h : Later c d) : Later c (d.publish m) := by
  refine ⟨?_, h.log, h.head, fun he hs => ?_⟩
  · simp only [Channel.publish]
    split
    · exact Nat.le_succ_of_le h.seq
    · exact h.seq
  · simp only [Channel.publish] at hs ⊢
    split at hs
    · have := h.seq
      omega
    · exact h.still he hs

theorem Later.commit (h : Later c d) (hd : d.Ok) : Later c (d.commit n) := by
  refine ⟨h.seq, h.log.trans (List.prefix_append _ _), h.head, fun he hs => ?_⟩
  have hs : d.pubSeq = c.pubSeq := hs
  have h0 := hd.staged (hd.even_iff.mp (hs ▸ he))
  obtain ⟨hl, hc⟩ := h.still he hs
  exact ⟨by simp [Channel.commit, h0, hl], hc⟩

theorem Later.beginFlush (h : Later c d) : Later c (d.beginFlush f) :=
  ⟨h.seq, h.log, h.head, h.still⟩

theorem Later.endFlush (h : Later c d) : Later c d.endFlush := by
  refine ⟨Nat.le_succ_of_le h.seq, h.log, h.head, fun _ hs => ?_⟩
  have hs : d.pubSeq + 1 = c.pubSeq := hs
  have := h.seq
  omega

theorem Later.pop (h : Later c d) : Later c d.pop :=
  ⟨h.seq, h.log, Nat.le_succ_of_le h.head, h.still⟩

@[simp] theorem published_publish : (c.publish m).published = c.published ++ [m] := by
  simp only [Channel.publish, published, List.append_assoc]

@[simp] theorem published_commit : (c.commit n).published = c.published := by
  change (c.log ++ c.staged.take n) ++ c.staged.drop n = c.log ++ c.staged
  rw [List.append_assoc, List.take_append_drop]

@[simp] theorem published_endFlush : c.endFlush.published = c.published := rfl
@[simp] theorem published_pop : c.pop.published = c.published := rfl

theorem popped_pop (hn : c.next = some m) : c.pop.popped = c.popped ++ [m] := by
  obtain ⟨hlt, rfl⟩ := List.getElem?_eq_some_iff.mp hn
  exact List.take_succ_eq_append_getElem hlt

theorem Ok.popped_commit (h : c.Ok) : (c.commit n).popped = c.popped :=
  List.take_append_of_le_length h.head_le

theorem popped_prefix : c.popped <+: c.published :=
  (List.take_prefix _ _).trans (List.prefix_append _ _)

end Moves

/-- The moves of the data path. -/
inductive Move : Channel → Channel → Prop
  | stay (c : Channel) : Move c c
  | publish (c : Channel) (m : GCMessage) : Move c { c with staged := c.staged ++ [m] }
  | commit (c : Channel) (n : ℕ) : Move c (c.commit n)
  | pop (c : Channel) (m : GCMessage) : c.next = some m → Move c c.pop

end Channel

namespace Transport

variable {o : Switches} {s t : Transport} {T U : ℕ} {a : Action}

/-- The channel of a transport state whose producer has made `T` messages visible. -/
def channel (s : Transport) (T : ℕ) : Channel where
  staged := s.published.drop T
  log := s.published.take T
  head := s.popped.length

theorem produce_logs (hs : s.produce o = some t) :
    t.published = s.published ∧ t.popped = s.popped := by
  unfold produce at hs
  cases hp : s.producer <;> simp only [hp] at hs
  case idle => cases hs
  case pushLoaded i head =>
    split at hs
    · obtain rfl := Option.some.inj hs; exact ⟨rfl, rfl⟩
    · obtain ⟨m, -, rfl⟩ := Option.map_eq_some_iff.mp hs; exact ⟨rfl, rfl⟩
  all_goals
    first
      | (split at hs <;> [skip; split at hs]) <;> obtain rfl := Option.some.inj hs
      | split at hs <;> obtain rfl := Option.some.inj hs
      | obtain rfl := Option.some.inj hs
  all_goals exact ⟨rfl, rfl⟩

/-- Every step of the transport is a move of its channel. -/
theorem refines (h : Inv o s T) (hs : step o s a = some t) :
    ∃ U, Inv o t U ∧ Channel.Move (s.channel T) (t.channel U) := by
  obtain ⟨U, hTU, hsame, hU⟩ := h.step hs
  refine ⟨U, hU, ?_⟩
  have hTl : T ≤ s.published.length := le_trans h.tracks.written h.tracks.logged
  cases a with
  | publish m =>
    obtain rfl := hsame (by simp)
    simp only [step, Option.ite_none_right_eq_some] at hs
    obtain ⟨-, ⟨⟩⟩ := hs
    simp only [channel, List.drop_append_of_le_length hTl, List.take_append_of_le_length hTl]
    exact .publish _ m
  | flush =>
    obtain rfl := hsame (by simp)
    simp only [step, Option.ite_none_right_eq_some] at hs
    obtain ⟨-, ⟨⟩⟩ := hs
    exact .stay _
  | producer =>
    obtain ⟨hpub, hpop⟩ := produce_logs hs
    have : t.channel U = (s.channel T).commit (U - T) := by
      obtain ⟨n, rfl⟩ := Nat.exists_eq_add_of_le hTU
      simp [channel, Channel.commit, hpub, hpop, List.drop_drop, List.take_add]
    rw [this]
    exact .commit _ _
  | tryPop =>
    obtain rfl := hsame (by simp)
    simp only [step, Option.ite_none_right_eq_some] at hs
    obtain ⟨-, ⟨⟩⟩ := hs
    exact .stay _
  | consumer =>
    obtain rfl := hsame (by simp)
    have hc := h.consumer
    simp only [step, consume] at hs
    cases hcp : s.consumer with
    | idle => simp [hcp] at hs
    | reading =>
      simp only [hcp] at hs
      obtain rfl := Option.some.inj hs
      exact .stay _
    | storing out =>
      simp only [hcp] at hs
      simp only [ConsumerOk, hcp] at hc
      obtain rfl := Option.some.inj hs
      have : (s.channel U).next = some out := by
        simp only [Channel.next, channel]
        rw [List.getElem?_take_of_lt hc.1, hc.2]
      simpa [channel, Channel.pop] using Channel.Move.pop _ out this
  | snapshot =>
    obtain rfl := hsame (by simp)
    simp only [step, Option.ite_none_right_eq_some] at hs
    obtain ⟨-, ⟨⟩⟩ := hs
    exact .stay _

end Transport

end Loxis.Aarc
