import Loxis.Lib.Run
import Loxis.Aarc.Cell
import Loxis.Aarc.SpscQueue

/-! # Message transport

One producer's path to the worker (`Runtime::publish`, `writeToSpan`, `commitStaged`,
`flushSlot` of `arc/runtime.hpp`, folding off) against a consumer that pops and takes
tail snapshots. A step makes at most one access to memory the other side sees.
-/

namespace Loxis.Aarc

def kMaxBatch : ℕ := 256

/-- The longest run a producer reserves at once. -/
def kMaxSpan : Size := 256

/-- `ProducerSlot`: the ring, its publication sequence and the producer's staging state.
`batch` is the staged prefix of the array, `spanPtr` the slot the span pointer is at. -/
structure ProducerSlot where
  queue : SpscQueue GCMessage 12
  pubSeq : Size := 0
  batch : List GCMessage := []
  spanPtr : ℕ := 0
  spanLeft : ℕ := 0
  spanN : ℕ := 0
  batchN : ℕ := 0

/-- The runtime switches the path depends on. -/
structure Switches where
  spanPath : Bool
  batchLimit : ℕ
  one_le : 1 ≤ batchLimit
  le_max : batchLimit ≤ kMaxBatch

/-- Where the producer is: `staging` to `writing` in `publish(m)`, `flushing` on in
`flushSlot`; the head it has loaded rides along until it is used. -/
inductive ProducerPc
  | idle
  | staging (m : GCMessage)
  | reserving (m : GCMessage)
  | reserved (m : GCMessage) (head : Size)
  | writing (m : GCMessage)
  | flushing
  | pushing (i : ℕ)
  | pushLoaded (i : ℕ) (head : Size)
  | pushWritten (i : ℕ)
  | closing
  deriving DecidableEq

/-- Where the consumer is in `tryPop`. -/
inductive ConsumerPc
  | idle
  | reading
  | storing (out : GCMessage)
  deriving DecidableEq

namespace ProducerSlot

def commitStaged (s : ProducerSlot) : ProducerSlot :=
  if s.spanN = 0 then s
  else { s with queue := s.queue.commitSpan (BitVec.ofNat 64 s.spanN), spanN := 0 }

/-- Open the publication window on the first staged message. -/
def openWindow (s : ProducerSlot) : ProducerSlot :=
  if s.batchN = 0 then { s with pubSeq := s.pubSeq + 1 } else s

/-- Stage into the batch array. -/
def stage (s : ProducerSlot) (m : GCMessage) : ProducerSlot :=
  { s with batch := s.batch ++ [m], batchN := s.batchN + 1 }

/-- Take the run `beginSpan` has reserved. -/
def takeSpan (s : ProducerSlot) (n : Size) : ProducerSlot :=
  { s with spanPtr := s.queue.spanPtr, spanLeft := n.toNat }

/-- Write into the open run, straight into the ring. -/
def writeSpan (s : ProducerSlot) (m : GCMessage) : ProducerSlot :=
  { s with
    queue := s.queue.write s.spanPtr m, spanPtr := s.spanPtr + 1,
    spanLeft := s.spanLeft - 1, spanN := s.spanN + 1, batchN := s.batchN + 1 }

/-- The payload write of `tryPush`. -/
def pushPayload (s : ProducerSlot) (m : GCMessage) : ProducerSlot :=
  { s with queue := s.queue.write (s.queue.index s.queue.tail) m }

/-- The tail store of `tryPush`. -/
def pushStore (s : ProducerSlot) : ProducerSlot := { s with queue := s.queue.commitSpan 1 }

def closeWindow (s : ProducerSlot) : ProducerSlot :=
  { s with batch := [], batchN := 0, pubSeq := s.pubSeq + 1 }

/-- After staging, `publish` flushes a full batch. -/
def afterStage (s : ProducerSlot) (o : Switches) : ProducerPc :=
  if o.batchLimit ≤ s.batchN then .flushing else .idle

section

variable (s : ProducerSlot)

@[simp] theorem openWindow_queue : s.openWindow.queue = s.queue := by
  unfold openWindow; split <;> rfl

@[simp] theorem openWindow_batch : s.openWindow.batch = s.batch := by
  unfold openWindow; split <;> rfl

@[simp] theorem openWindow_spanPtr : s.openWindow.spanPtr = s.spanPtr := by
  unfold openWindow; split <;> rfl

@[simp] theorem openWindow_spanLeft : s.openWindow.spanLeft = s.spanLeft := by
  unfold openWindow; split <;> rfl

@[simp] theorem openWindow_spanN : s.openWindow.spanN = s.spanN := by
  unfold openWindow; split <;> rfl

@[simp] theorem openWindow_batchN : s.openWindow.batchN = s.batchN := by
  unfold openWindow; split <;> rfl

@[simp] theorem commitStaged_batch : s.commitStaged.batch = s.batch := by
  unfold commitStaged; split <;> rfl

@[simp] theorem commitStaged_spanPtr : s.commitStaged.spanPtr = s.spanPtr := by
  unfold commitStaged; split <;> rfl

@[simp] theorem commitStaged_spanLeft : s.commitStaged.spanLeft = s.spanLeft := by
  unfold commitStaged; split <;> rfl

@[simp] theorem commitStaged_spanN : s.commitStaged.spanN = 0 := by
  unfold commitStaged; split <;> simp_all

@[simp] theorem commitStaged_pubSeq : s.commitStaged.pubSeq = s.pubSeq := by
  unfold commitStaged; split <;> rfl

@[simp] theorem commitStaged_batchN : s.commitStaged.batchN = s.batchN := by
  unfold commitStaged; split <;> rfl

end

end ProducerSlot

/-- The slot, the two parties, and the logs of what was published and popped. -/
structure Transport where
  slot : ProducerSlot
  producer : ProducerPc := .idle
  consumer : ConsumerPc := .idle
  tailSnapshot : Size := 0
  published : List GCMessage := []
  popped : List GCMessage := []

/-- Start `publish(m)` or `flush()`, let either side take its next step, start a
`tryPop`, or take a tail snapshot. -/
inductive Transport.Action
  | publish (m : GCMessage)
  | flush
  | producer
  | tryPop
  | consumer
  | snapshot
  deriving DecidableEq

namespace Transport

/-- The producer's next step. -/
def produce (o : Switches) (s : Transport) : Option Transport :=
  match s.producer with
  | .idle => none
  | .staging m =>
    if o.spanPath = false then
      let slot := s.slot.stage m
      some { s with slot, producer := slot.afterStage o }
    else if s.slot.spanLeft = 0 then
      some { s with slot := s.slot.commitStaged, producer := .reserving m }
    else some { s with producer := .writing m }
  | .reserving m => some { s with producer := .reserved m s.slot.queue.head }
  | .reserved m head =>
    let n := s.slot.queue.beginSpan head kMaxSpan
    if n = 0 then some { s with producer := .reserving m }
    else some { s with slot := s.slot.takeSpan n, producer := .writing m }
  | .writing m =>
    let slot := s.slot.writeSpan m
    some { s with slot, producer := slot.afterStage o }
  | .flushing =>
    if o.spanPath = false then some { s with producer := .pushing 0 }
    else some { s with slot := s.slot.commitStaged, producer := .closing }
  | .pushing i =>
    if i < s.slot.batchN then some { s with producer := .pushLoaded i s.slot.queue.head }
    else some { s with producer := .closing }
  | .pushLoaded i head =>
    if s.slot.queue.full head then some { s with producer := .pushing i }
    else (s.slot.batch[i]?).map fun m =>
      { s with slot := s.slot.pushPayload m, producer := .pushWritten i }
  | .pushWritten i => some { s with slot := s.slot.pushStore, producer := .pushing (i + 1) }
  | .closing => some { s with slot := s.slot.closeWindow, producer := .idle }

/-- The consumer's next step. -/
def consume (s : Transport) : Option Transport :=
  match s.consumer with
  | .idle => none
  | .reading => some { s with consumer := .storing s.slot.queue.read }
  | .storing out =>
    some { s with
      slot := { s.slot with queue := s.slot.queue.advance }, consumer := .idle,
      popped := s.popped ++ [out] }

def step (o : Switches) (s : Transport) : Action → Option Transport
  | .publish m =>
    if s.producer = .idle then
      some { s with
        slot := s.slot.openWindow, producer := .staging m, published := s.published ++ [m] }
    else none
  | .flush =>
    if s.producer = .idle then
      some { s with producer := if s.slot.batchN = 0 then .idle else .flushing }
    else none
  | .producer => s.produce o
  | .tryPop =>
    if s.consumer = .idle then
      some { s with consumer := if s.slot.queue.empty then .idle else .reading }
    else none
  | .consumer => s.consume
  | .snapshot =>
    if s.consumer = .idle then some { s with tailSnapshot := s.slot.queue.tailSnapshot } else none

/-- A fresh slot over an uninitialised ring. -/
def Initial (s : Transport) : Prop := ∃ slot, s = { slot := { queue := { slot } } }

def system (o : Switches) : System Transport Action := .ofStep Initial (step o)

section Invariant

variable {o : Switches} {s t : Transport} {T : ℕ}

/-- Messages the producer still holds outside the ring. -/
def pending (s : Transport) : List GCMessage :=
  match s.producer with
  | .idle | .flushing => s.slot.batch
  | .staging m | .reserving m | .reserved m _ | .writing m => s.slot.batch ++ [m]
  | .pushing i | .pushLoaded i _ => s.slot.batch.drop i
  | .pushWritten i => s.slot.batch.drop (i + 1)
  | .closing => []

/-- Messages written into the ring past the tail. -/
def ahead (s : Transport) : ℕ :=
  match s.producer with
  | .pushWritten _ => s.slot.spanN + 1
  | _ => s.slot.spanN

/-- A loaded head is an old one, not behind the tail by more than the capacity. -/
def Stale (s : Transport) (T : ℕ) (head : Size) : Prop :=
  ∃ G ≤ s.popped.length, head = BitVec.ofNat 64 G ∧ T ≤ G + 2 ^ 12

/-- What holds where the producer is. -/
def ProducerOk (o : Switches) (s : Transport) (T : ℕ) : Prop :=
  match s.producer with
  | .idle | .staging _ => s.slot.spanN ≤ s.slot.batchN ∧ s.slot.batchN < o.batchLimit
  | .reserving _ =>
    o.spanPath ∧ s.slot.spanLeft = 0 ∧ s.slot.spanN = 0 ∧ s.slot.batchN < o.batchLimit
  | .reserved _ head =>
    o.spanPath ∧ s.slot.spanLeft = 0 ∧ s.slot.spanN = 0 ∧ s.slot.batchN < o.batchLimit ∧
      s.Stale T head
  | .writing _ =>
    o.spanPath ∧ 0 < s.slot.spanLeft ∧ s.slot.spanN ≤ s.slot.batchN ∧
      s.slot.batchN < o.batchLimit
  | .flushing => s.slot.batchN ≤ o.batchLimit
  | .pushing i => o.spanPath = false ∧ i ≤ s.slot.batchN ∧ s.slot.batchN ≤ o.batchLimit
  | .pushLoaded i head =>
    o.spanPath = false ∧ i < s.slot.batchN ∧ s.slot.batchN ≤ o.batchLimit ∧ s.Stale T head
  | .pushWritten i => o.spanPath = false ∧ i < s.slot.batchN ∧ s.slot.batchN ≤ o.batchLimit
  | .closing => s.slot.spanN = 0 ∧ s.slot.batchN ≤ o.batchLimit

/-- What holds where the consumer is. -/
def ConsumerOk (s : Transport) (T : ℕ) : Prop :=
  match s.consumer with
  | .idle => True
  | .reading => s.popped.length < T
  | .storing out => s.popped.length < T ∧ s.published[s.popped.length]? = some out

/-- The invariant, `T` being the number of messages the producer has made visible. -/
structure Inv (o : Switches) (s : Transport) (T : ℕ) : Prop where
  tracks : s.slot.queue.Tracks s.published s.popped.length T (T + s.ahead)
  rest : s.published.drop (T + s.ahead) = s.pending
  popped : s.popped = s.published.take s.popped.length
  span : 0 < s.slot.spanLeft →
    s.slot.spanPtr = (T + s.slot.spanN) % 2 ^ 12 ∧ s.slot.spanPtr + s.slot.spanLeft ≤ 2 ^ 12 ∧
      T + s.slot.spanN + s.slot.spanLeft ≤ s.popped.length + 2 ^ 12
  direct : o.spanPath → s.slot.batch = []
  staged : o.spanPath = false →
    s.slot.spanN = 0 ∧ s.slot.spanLeft = 0 ∧ s.slot.batch.length = s.slot.batchN
  producer : s.ProducerOk o T
  consumer : s.ConsumerOk T

namespace Inv

variable (h : Inv o s T)

include h

/-- The next message of the log is the first the producer still holds. -/
theorem next {m : GCMessage} {ms : List GCMessage} (hp : s.pending = m :: ms) :
    s.published[T + s.ahead]? = some m := by
  rw [← List.head?_drop, h.rest, hp]
  rfl

theorem drop_succ {m : GCMessage} {ms : List GCMessage} (hp : s.pending = m :: ms) :
    s.published.drop (T + s.ahead + 1) = ms := by
  rw [← List.drop_drop, h.rest, hp]
  rfl

/-- A head loaded now. -/
theorem stale (ha : s.ahead = s.slot.spanN) : s.Stale T s.slot.queue.head :=
  ⟨_, le_rfl, h.tracks.head, by have := h.tracks.room; have := h.tracks.written; omega⟩

/-- Committing the staged run makes it visible. -/
theorem commitStaged (ha : s.ahead = s.slot.spanN) :
    s.slot.commitStaged.queue.Tracks s.published s.popped.length (T + s.slot.spanN)
      (T + s.slot.spanN) := by
  have ht := h.tracks.commitSpan (n := s.slot.spanN) (by omega)
  rw [ha] at ht
  by_cases h0 : s.slot.spanN = 0
  · have := h.tracks
    rw [ha, h0] at this
    simpa [ProducerSlot.commitStaged, h0] using this
  · simpa [ProducerSlot.commitStaged, h0] using ht

theorem publish (hp : s.producer = .idle) (m : GCMessage) :
    Inv o { s with
      slot := s.slot.openWindow, producer := .staging m, published := s.published ++ [m] } T := by
  have ht := h.tracks
  have hl := ht.logged
  have hb := h.rest
  have hok := h.producer
  simp only [ahead, pending, ProducerOk, hp] at ht hl hb hok
  refine ⟨?_, ?_, ?_, ?_, ?_, ?_, ?_, ?_⟩
  · simpa [ahead] using ht.append m
  · simp only [ahead, pending, ProducerSlot.openWindow_spanN, ProducerSlot.openWindow_batch]
    rw [List.drop_append_of_le_length hl, hb]
  · have := ht.popped
    rw [List.take_append_of_le_length (show s.popped.length ≤ _ by omega)]
    exact h.popped
  · simpa using h.span
  · simpa using h.direct
  · simpa using h.staged
  · simpa [ProducerOk] using hok
  · have hc := h.consumer
    simp only [ConsumerOk] at hc ⊢
    cases hcp : s.consumer with
    | storing out =>
      rw [hcp] at hc
      exact ⟨hc.1, by rw [List.getElem?_append_left (by have := ht.popped; omega)]; exact hc.2⟩
    | idle => trivial
    | reading => simpa [hcp] using hc

/-- What a producer step leaves alone carries over. -/
theorem consumer_eq (hc : t.consumer = s.consumer) (hpub : t.published = s.published)
    (hpop : t.popped = s.popped) {U : ℕ} (hU : T ≤ U) : t.ConsumerOk U := by
  have := h.consumer
  simp only [ConsumerOk, hc, hpub, hpop] at this ⊢
  cases hcp : s.consumer with
  | idle => trivial
  | reading => rw [hcp] at this; exact lt_of_lt_of_le this hU
  | storing out => rw [hcp] at this; exact ⟨lt_of_lt_of_le this.1 hU, this.2⟩

end Inv

section AfterStage

variable (s) (slot : ProducerSlot)

theorem ahead_afterStage : ahead { s with slot, producer := slot.afterStage o } = slot.spanN := by
  unfold ProducerSlot.afterStage
  split <;> rfl

theorem pending_afterStage :
    pending { s with slot, producer := slot.afterStage o } = slot.batch := by
  unfold ProducerSlot.afterStage
  split <;> rfl

theorem producerOk_afterStage (hn : slot.spanN ≤ slot.batchN) (hl : slot.batchN ≤ o.batchLimit) :
    ProducerOk o { s with slot, producer := slot.afterStage o } T := by
  unfold ProducerSlot.afterStage
  split
  · exact hl
  · next hlt => exact ⟨hn, Nat.lt_of_not_le hlt⟩

end AfterStage

namespace Inv

variable (h : Inv o s T)

include h

/-- Staging into the batch array. -/
theorem stage {m : GCMessage} (hp : s.producer = .staging m) (ho : o.spanPath = false) :
    let slot := s.slot.stage m
    Inv o { s with slot, producer := slot.afterStage o } T := by
  have ht := h.tracks
  have hr := h.rest
  have hok := h.producer
  obtain ⟨h0, hl, hb⟩ := h.staged ho
  simp only [ahead, Transport.pending, ProducerOk, hp] at ht hr hok
  refine ⟨?_, ?_, h.popped, h.span, by simp [ho], fun _ => ?_, ?_, h.consumer_eq rfl rfl rfl le_rfl⟩
  · rw [ahead_afterStage]; exact ht
  · rw [ahead_afterStage, pending_afterStage]; exact hr
  · exact ⟨h0, hl, by simp [ProducerSlot.stage, hb]⟩
  · exact producerOk_afterStage _ _ (by simp [ProducerSlot.stage, h0]) hok.2

/-- Writing a message into the open run. -/
theorem write {m : GCMessage} (hp : s.producer = .writing m) :
    let slot := s.slot.writeSpan m
    Inv o { s with slot, producer := slot.afterStage o } T := by
  have ht := h.tracks
  have hok := h.producer
  simp only [ahead, ProducerOk, hp] at ht hok
  obtain ⟨ho, hpos, hn, hl⟩ := hok
  obtain ⟨hptr, hend, hroom⟩ := h.span hpos
  have hpend : s.pending = [m] := by simp [Transport.pending, hp, h.direct ho]
  have hnext := h.next hpend
  have hdrop := h.drop_succ hpend
  simp only [ahead, hp] at hnext hdrop
  refine ⟨?_, ?_, h.popped, ?_, fun _ => h.direct ho, by simp [ho], ?_,
    h.consumer_eq rfl rfl rfl le_rfl⟩
  · rw [ahead_afterStage, ProducerSlot.writeSpan, hptr]
    exact ht.write (by omega) hnext
  · rw [ahead_afterStage, pending_afterStage]
    exact hdrop.trans (h.direct ho).symm
  · intro h'
    simp only [ProducerSlot.writeSpan] at h' hend ⊢
    refine ⟨?_, by omega, by omega⟩
    rw [hptr] at hend ⊢
    omega
  · exact producerOk_afterStage _ _ (by simp [ProducerSlot.writeSpan, hn]) hl

/-- The run still open at the ring end or the consumer's head is published first. -/
theorem publishRun {m : GCMessage} (hp : s.producer = .staging m) (ho : o.spanPath)
    (hl : s.slot.spanLeft = 0) :
    Inv o { s with slot := s.slot.commitStaged, producer := .reserving m } (T + s.slot.spanN) := by
  have ha : s.ahead = s.slot.spanN := by simp [ahead, hp]
  have hr := h.rest
  have hok := h.producer
  simp only [Transport.pending, ProducerOk, hp, ha] at hr hok
  refine ⟨?_, ?_, h.popped, ?_, ?_, by simp [ho], ?_, h.consumer_eq rfl rfl rfl (by omega)⟩
  · simpa [ahead] using h.commitStaged ha
  · simpa [ahead, Transport.pending] using hr
  · simp [hl]
  · simpa using h.direct
  · simpa [ProducerOk, ho, hl] using hok.2

/-- A committed batch. -/
theorem commit (hp : s.producer = .flushing) (ho : o.spanPath) :
    Inv o { s with slot := s.slot.commitStaged, producer := .closing } (T + s.slot.spanN) := by
  have ha : s.ahead = s.slot.spanN := by simp [ahead, hp]
  have hr := h.rest
  have hok := h.producer
  simp only [Transport.pending, ProducerOk, hp, ha] at hr hok
  refine ⟨?_, ?_, h.popped, ?_, ?_, by simp [ho], ?_, h.consumer_eq rfl rfl rfl (by omega)⟩
  · simpa [ahead] using h.commitStaged ha
  · simpa [ahead, Transport.pending, h.direct ho] using hr
  · simpa using fun h' => (h.span h').imp id fun h => ⟨h.1, by omega⟩
  · simpa using h.direct
  · simpa [ProducerOk] using hok

/-- Taking the run that `beginSpan` has reserved. -/
theorem takeSpan {m : GCMessage} {head : Size} (hp : s.producer = .reserved m head)
    (hn : s.slot.queue.beginSpan head kMaxSpan ≠ 0) :
    Inv o { s with
      slot := s.slot.takeSpan (s.slot.queue.beginSpan head kMaxSpan), producer := .writing m } T := by
  have ht := h.tracks
  have hr := h.rest
  have hok := h.producer
  simp only [ahead, Transport.pending, ProducerOk, hp] at ht hr hok
  obtain ⟨ho, hl, h0, hb, G, hG, rfl, hcap⟩ := hok
  have hle := ht.popped
  have hsp := SpscQueue.beginSpan_toNat (by decide) ht.tail (by omega) hcap kMaxSpan
  have hpos : 0 < (s.slot.queue.beginSpan (BitVec.ofNat 64 G) kMaxSpan).toNat := by
    rw [Nat.pos_iff_ne_zero]
    exact fun h' => hn (BitVec.eq_of_toNat_eq h')
  refine ⟨ht, hr, h.popped, fun _ => ?_, h.direct, by simp [ho], ?_,
    h.consumer_eq rfl rfl rfl le_rfl⟩
  · simp only [ProducerSlot.takeSpan, ht.spanPtr_eq (by decide), h0, hsp]
    omega
  · simp only [ProducerOk, ProducerSlot.takeSpan, h0]
    exact ⟨ho, hpos, Nat.zero_le _, hb⟩

/-- The payload write of a push. -/
theorem pushPayload {i : ℕ} {head : Size} {m : GCMessage} (hp : s.producer = .pushLoaded i head)
    (hf : s.slot.queue.full head = false) (hm : s.slot.batch[i]? = some m) :
    Inv o { s with slot := s.slot.pushPayload m, producer := .pushWritten i } T := by
  have ht := h.tracks
  have hok := h.producer
  simp only [ahead, ProducerOk, hp] at ht hok
  obtain ⟨ho, hi, hb, G, hG, rfl, hcap⟩ := hok
  obtain ⟨h0, hl, hlen⟩ := h.staged ho
  have hle := ht.popped
  have hfull := (SpscQueue.full_iff (by decide) ht.tail (by omega) hcap).not.mp (by simp [hf])
  have hpend : s.pending = m :: s.slot.batch.drop (i + 1) := by
    simp only [Transport.pending, hp]
    rw [List.drop_eq_getElem_cons (by omega)]
    rw [List.getElem?_eq_getElem (by omega), Option.some.injEq] at hm
    rw [hm]
  have hnext := h.next hpend
  have hdrop := h.drop_succ hpend
  simp only [ahead, hp, h0] at hnext hdrop
  rw [h0] at ht
  refine ⟨?_, ?_, h.popped, by simp [ProducerSlot.pushPayload, hl], by simp [ho],
    fun _ => ⟨h0, hl, hlen⟩, ⟨ho, hi, hb⟩, h.consumer_eq rfl rfl rfl le_rfl⟩
  · simp only [ahead, ProducerSlot.pushPayload, h0, ht.tail, SpscQueue.index_ofNat (k := 12) (by decide)]
    exact ht.write (by omega) hnext
  · simpa [ahead, Transport.pending, ProducerSlot.pushPayload, h0] using hdrop

/-- The tail store of a push. -/
theorem pushStore {i : ℕ} (hp : s.producer = .pushWritten i) :
    Inv o { s with slot := s.slot.pushStore, producer := .pushing (i + 1) } (T + 1) := by
  have ht := h.tracks
  have hr := h.rest
  have hok := h.producer
  simp only [ahead, Transport.pending, ProducerOk, hp] at ht hr hok
  obtain ⟨ho, hi, hb⟩ := hok
  obtain ⟨h0, hl, hlen⟩ := h.staged ho
  rw [h0] at ht hr
  refine ⟨?_, ?_, h.popped, by simp [ProducerSlot.pushStore, hl], by simp [ho],
    fun _ => ⟨h0, hl, hlen⟩, ⟨ho, hi, hb⟩, h.consumer_eq rfl rfl rfl (by omega)⟩
  · simpa [ahead, ProducerSlot.pushStore, h0] using ht.commitSpan (n := 1) (by omega)
  · simpa [ahead, Transport.pending, ProducerSlot.pushStore, h0] using hr

/-- Closing the publication window. -/
theorem close (hp : s.producer = .closing) :
    Inv o { s with slot := s.slot.closeWindow, producer := .idle } T := by
  have ht := h.tracks
  have hr := h.rest
  have hok := h.producer
  simp only [ahead, Transport.pending, ProducerOk, hp] at ht hr hok
  refine ⟨ht, hr, h.popped, h.span, fun _ => rfl, fun ho => ?_, ?_, h.consumer_eq rfl rfl rfl le_rfl⟩
  · obtain ⟨h0, hl, -⟩ := h.staged ho
    exact ⟨h0, hl, rfl⟩
  · exact ⟨by simp [ProducerSlot.closeWindow, hok.1], o.one_le⟩

/-- A step of the producer that touches nothing but its own program counter. -/
theorem move {pc : ProducerPc} (ha : ahead { s with producer := pc } = s.ahead)
    (hpend : Transport.pending { s with producer := pc } = s.pending)
    (hok : ProducerOk o { s with producer := pc } T) : Inv o { s with producer := pc } T where
  tracks := by rw [ha]; exact h.tracks
  rest := by rw [ha, hpend]; exact h.rest
  popped := h.popped
  span := h.span
  direct := h.direct
  staged := h.staged
  producer := hok
  consumer := h.consumer_eq rfl rfl rfl le_rfl

theorem produce (hs : s.produce o = some t) : ∃ U, T ≤ U ∧ Inv o t U := by
  have hok := h.producer
  unfold Transport.produce at hs
  cases hp : s.producer with
  | idle => simp [hp] at hs
  | staging m =>
    simp only [ProducerOk, hp] at hs hok
    split at hs
    · next ho =>
      obtain rfl := Option.some.inj hs
      exact ⟨T, le_rfl, h.stage hp ho⟩
    · next ho =>
      replace ho : o.spanPath = true := by simpa using ho
      split at hs <;> obtain rfl := Option.some.inj hs
      · next hl => exact ⟨_, Nat.le_add_right .., h.publishRun hp ho hl⟩
      · next hl =>
        exact ⟨T, le_rfl, h.move (by simp [ahead, hp]) (by simp [Transport.pending, hp])
          ⟨ho, Nat.pos_of_ne_zero hl, hok⟩⟩
  | reserving m =>
    simp only [ProducerOk, hp] at hs hok
    obtain rfl := Option.some.inj hs
    obtain ⟨ho, hl, h0, hb⟩ := hok
    exact ⟨T, le_rfl, h.move (by simp [ahead, hp]) (by simp [Transport.pending, hp])
      ⟨ho, hl, h0, hb, h.stale (by simp [ahead, hp])⟩⟩
  | reserved m head =>
    simp only [ProducerOk, hp] at hs hok
    obtain ⟨ho, hl, h0, hb, -⟩ := hok
    split at hs <;> obtain rfl := Option.some.inj hs
    · exact ⟨T, le_rfl, h.move (by simp [ahead, hp]) (by simp [Transport.pending, hp])
        ⟨ho, hl, h0, hb⟩⟩
    · next hn => exact ⟨T, le_rfl, h.takeSpan hp hn⟩
  | writing m =>
    simp only [hp] at hs
    obtain rfl := Option.some.inj hs
    exact ⟨T, le_rfl, h.write hp⟩
  | flushing =>
    simp only [ProducerOk, hp] at hs hok
    split at hs <;> obtain rfl := Option.some.inj hs
    · next ho =>
      exact ⟨T, le_rfl, h.move (by simp [ahead, hp]) (by simp [Transport.pending, hp])
        ⟨ho, Nat.zero_le _, hok⟩⟩
    · next ho => exact ⟨_, Nat.le_add_right .., h.commit hp (by simpa using ho)⟩
  | pushing i =>
    simp only [ProducerOk, hp] at hs hok
    obtain ⟨ho, hi, hb⟩ := hok
    obtain ⟨h0, -, hlen⟩ := h.staged ho
    split at hs <;> obtain rfl := Option.some.inj hs
    · next hlt =>
      exact ⟨T, le_rfl, h.move (by simp [ahead, hp]) (by simp [Transport.pending, hp])
        ⟨ho, hlt, hb, h.stale (by simp [ahead, hp])⟩⟩
    · refine ⟨T, le_rfl, h.move (by simp [ahead, hp]) ?_ ⟨h0, hb⟩⟩
      simp only [Transport.pending, hp]
      exact (List.drop_eq_nil_of_le (by omega)).symm
  | pushLoaded i head =>
    simp only [ProducerOk, hp] at hs hok
    obtain ⟨ho, hi, hb, -⟩ := hok
    split at hs
    · obtain rfl := Option.some.inj hs
      exact ⟨T, le_rfl, h.move (by simp [ahead, hp]) (by simp [Transport.pending, hp])
        ⟨ho, hi.le, hb⟩⟩
    · next hf =>
      obtain ⟨m, hm, rfl⟩ := Option.map_eq_some_iff.mp hs
      exact ⟨T, le_rfl, h.pushPayload hp (by simpa using hf) hm⟩
  | pushWritten i =>
    simp only [hp] at hs
    obtain rfl := Option.some.inj hs
    exact ⟨_, Nat.le_add_right .., h.pushStore hp⟩
  | closing =>
    simp only [hp] at hs
    obtain rfl := Option.some.inj hs
    exact ⟨T, le_rfl, h.close hp⟩

/-- The consumer sees a message once the tail is past its head, and keeps seeing it. -/
theorem tryPop : Inv o { s with
    consumer := if s.slot.queue.empty then .idle else .reading } T := by
  refine { h with consumer := ?_ }
  split
  · trivial
  · next he =>
    have := (h.tracks.empty_iff (by decide)).not.mp (by simpa using he)
    exact lt_of_le_of_ne h.tracks.popped this

theorem read (hc : s.consumer = .reading) :
    Inv o { s with consumer := .storing s.slot.queue.read } T := by
  have hlt := h.consumer
  simp only [ConsumerOk, hc] at hlt
  exact { h with consumer := ⟨hlt, h.tracks.read_eq (by decide) hlt⟩ }

theorem pop {out : GCMessage} (hc : s.consumer = .storing out) :
    Inv o { s with
      slot := { s.slot with queue := s.slot.queue.advance }, consumer := .idle,
      popped := s.popped ++ [out] } T := by
  have hlt := h.consumer
  simp only [ConsumerOk, hc] at hlt
  have hlen : (s.popped ++ [out]).length = s.popped.length + 1 := by simp
  refine ⟨?_, h.rest, ?_, fun h' => ?_, h.direct, h.staged, ?_, trivial⟩
  · rw [hlen]
    exact h.tracks.advance hlt.1
  · rw [hlen, List.take_add_one, hlt.2, ← h.popped]
    rfl
  · have := h.span h'
    rw [hlen]
    exact ⟨this.1, this.2.1, by simp only; omega⟩
  · have hok := h.producer
    simp only [ProducerOk, Stale] at hok ⊢
    cases hp : s.producer <;> simp only [hp, hlen] at hok ⊢ <;> grind

/-- Every step keeps the invariant; only the producer moves the tail, and only forward. -/
theorem step {a : Action} (hs : step o s a = some t) :
    ∃ U, T ≤ U ∧ (a ≠ .producer → U = T) ∧ Inv o t U := by
  cases a with
  | publish m =>
    simp only [Transport.step, Option.ite_none_right_eq_some] at hs
    obtain ⟨hp, ⟨⟩⟩ := hs
    exact ⟨T, le_rfl, fun _ => rfl, h.publish hp m⟩
  | flush =>
    simp only [Transport.step, Option.ite_none_right_eq_some] at hs
    obtain ⟨hp, ⟨⟩⟩ := hs
    have hok := h.producer
    simp only [ProducerOk, hp] at hok
    split
    · exact ⟨T, le_rfl, fun _ => rfl, h.move (by simp [ahead, hp]) (by simp [Transport.pending, hp]) hok⟩
    · exact ⟨T, le_rfl, fun _ => rfl, h.move (by simp [ahead, hp]) (by simp [Transport.pending, hp]) hok.2.le⟩
  | producer =>
    obtain ⟨U, hU, hI⟩ := h.produce hs
    exact ⟨U, hU, fun hne => absurd rfl hne, hI⟩
  | tryPop =>
    simp only [Transport.step, Option.ite_none_right_eq_some] at hs
    obtain ⟨-, ⟨⟩⟩ := hs
    exact ⟨T, le_rfl, fun _ => rfl, h.tryPop⟩
  | consumer =>
    simp only [Transport.step, Transport.consume] at hs
    cases hc : s.consumer with
    | idle => simp [hc] at hs
    | reading =>
      simp only [hc] at hs
      obtain rfl := Option.some.inj hs
      exact ⟨T, le_rfl, fun _ => rfl, h.read hc⟩
    | storing out =>
      simp only [hc] at hs
      obtain rfl := Option.some.inj hs
      exact ⟨T, le_rfl, fun _ => rfl, h.pop hc⟩
  | snapshot =>
    simp only [Transport.step, Option.ite_none_right_eq_some] at hs
    obtain ⟨-, ⟨⟩⟩ := hs
    exact ⟨T, le_rfl, fun _ => rfl, { h with }⟩

/-- After a flush has returned, everything published is visible. -/
theorem flushed (hp : s.producer = .idle) (hb : s.slot.batchN = 0) : s.published.length = T := by
  have hok := h.producer
  have hr := h.rest
  have hl := h.tracks.logged
  simp only [ahead, Transport.pending, ProducerOk, hp] at hok hr hl
  have hbatch : s.slot.batch = [] := by
    cases ho : o.spanPath with
    | true => exact h.direct ho
    | false => exact List.eq_nil_of_length_eq_zero ((h.staged ho).2.2.trans hb)
  rw [hbatch, List.drop_eq_nil_iff] at hr
  omega

end Inv

theorem inv_init (hi : Initial s) : Inv o s 0 := by
  obtain ⟨slot, rfl⟩ := hi
  exact {
    tracks := ⟨rfl, rfl, le_rfl, le_rfl, Nat.zero_le _, le_rfl, fun _ _ h => absurd h (by simp [ahead])⟩
    rest := rfl
    popped := rfl
    span := fun h => absurd h (lt_irrefl 0)
    direct := fun _ => rfl
    staged := fun _ => ⟨rfl, rfl, rfl⟩
    producer := ⟨le_rfl, o.one_le⟩
    consumer := trivial }

theorem reachable_inv (h : (system o).Reachable s) : ∃ T, Inv o s T :=
  h.inv (P := fun s => ∃ T, Inv o s T) (fun _ hi => ⟨0, inv_init hi⟩)
    (fun _ _ _ ⟨_, hT⟩ hs => (hT.step hs).imp fun _ h => h.2.2)

/-- The consumer pops a prefix of what was published; once a flush has returned and the
ring is drained, all of it. -/
theorem lossless (h : (system o).Reachable s) :
    s.popped <+: s.published ∧
      (s.producer = .idle → s.slot.batchN = 0 → s.consumer = .idle → s.slot.queue.empty = true →
        s.popped = s.published) := by
  obtain ⟨T, hT⟩ := reachable_inv h
  refine ⟨hT.popped ▸ List.take_prefix _ _, fun hp hb _ he => ?_⟩
  have hlen := hT.flushed hp hb
  have hpop := (hT.tracks.empty_iff (by decide)).mp he
  rw [hT.popped, hpop, ← hlen, List.take_length]

/-- Two messages through the span path, committed as one run and drained. -/
theorem lossless_pair : ∃ s : Transport,
    (system ⟨true, 2, by decide, by decide⟩).Reachable s ∧
      s.popped = [⟨.rootAdd, kNullHandle, ⟨1, 0⟩, 1⟩, ⟨.rootRemove, kNullHandle, ⟨1, 0⟩, 1⟩] ∧
        s.popped = s.published := by
  obtain ⟨s, hr, hp⟩ := System.reachable_of_exec Initial
    (step ⟨true, 2, by decide, by decide⟩)
    { slot := { queue := { slot := fun _ => ⟨.terminate, kNullHandle, kNullHandle, 0⟩ } } }
    ([.publish ⟨.rootAdd, kNullHandle, ⟨1, 0⟩, 1⟩] ++ List.replicate 4 .producer ++
      [.publish ⟨.rootRemove, kNullHandle, ⟨1, 0⟩, 1⟩] ++ List.replicate 4 .producer ++
      [.snapshot, .tryPop, .consumer, .consumer, .tryPop, .consumer, .consumer])
    (fun s => decide (s.producer = .idle ∧ s.slot.batchN = 0 ∧ s.consumer = .idle ∧
      s.slot.queue.empty = true ∧
      s.popped = [⟨.rootAdd, kNullHandle, ⟨1, 0⟩, 1⟩, ⟨.rootRemove, kNullHandle, ⟨1, 0⟩, 1⟩]))
    ⟨_, rfl⟩ (by decide +kernel)
  obtain ⟨hp, hb, hc, he, hpop⟩ := of_decide_eq_true hp
  exact ⟨s, hr, hpop, (lossless hr).2 hp hb hc he⟩

/-- The batch array is never overrun. -/
theorem batchN_le (h : (system o).Reachable s) : s.slot.batchN ≤ kMaxBatch := by
  obtain ⟨T, hT⟩ := reachable_inv h
  have hok := hT.producer
  have hmax := o.le_max
  simp only [ProducerOk] at hok
  cases hp : s.producer <;> simp only [hp] at hok <;> omega

end Invariant

section Window

variable {o : Switches} {s t : Transport}

/-- `pubSeq` is odd exactly while a batch is open. -/
def Window (s : Transport) : Prop :=
  s.slot.pubSeq.toNat % 2 = 1 ↔ s.producer ≠ .idle ∨ s.slot.batchN ≠ 0

theorem odd_succ (n : Size) : (n + 1).toNat % 2 = 1 ↔ ¬n.toNat % 2 = 1 := by
  rw [BitVec.toNat_add]
  simp only [BitVec.ofNat_eq_ofNat, BitVec.toNat_ofNat]
  omega

/-- A producer step either leaves the window open or closes it. -/
theorem window_produce (hs : s.produce o = some t) :
    s.producer ≠ .idle ∧
      (t.slot.pubSeq = s.slot.pubSeq ∧ (t.producer ≠ .idle ∨ t.slot.batchN ≠ 0) ∨
        t.slot.pubSeq = s.slot.pubSeq + 1 ∧ t.producer = .idle ∧ t.slot.batchN = 0) := by
  unfold produce at hs
  cases hp : s.producer <;> simp only [hp] at hs
  case idle => cases hs
  case closing => obtain rfl := Option.some.inj hs; simp [ProducerSlot.closeWindow]
  case pushLoaded i head =>
    split at hs
    · obtain rfl := Option.some.inj hs; simp
    · obtain ⟨m, -, rfl⟩ := Option.map_eq_some_iff.mp hs
      simp [ProducerSlot.pushPayload]
  all_goals
    first
      | (split at hs <;> [skip; split at hs]) <;> obtain rfl := Option.some.inj hs
      | split at hs <;> obtain rfl := Option.some.inj hs
      | obtain rfl := Option.some.inj hs
  all_goals simp [ProducerSlot.stage, ProducerSlot.writeSpan, ProducerSlot.takeSpan,
    ProducerSlot.pushStore]

theorem window_step {a : Action} (h : s.Window) (hs : step o s a = some t) : t.Window := by
  unfold Window at h ⊢
  cases a with
  | publish m =>
    simp only [step, Option.ite_none_right_eq_some] at hs
    obtain ⟨hp, ⟨⟩⟩ := hs
    simp only [ProducerSlot.openWindow, hp] at h ⊢
    split
    · next hb =>
      simp only [odd_succ]
      simpa [hb] using h
    · next hb => simpa [hb] using h
  | flush =>
    simp only [step, Option.ite_none_right_eq_some] at hs
    obtain ⟨hp, ⟨⟩⟩ := hs
    simp only [hp] at h ⊢
    split <;> simp_all
  | producer =>
    obtain ⟨hp, ⟨hseq, ho⟩ | ⟨hseq, hi, hb⟩⟩ := window_produce hs
    · simpa [hseq, ho] using h.mpr (.inl hp)
    · rw [hseq, odd_succ]
      simpa [hi, hb] using h.mpr (.inl hp)
  | tryPop =>
    simp only [step, Option.ite_none_right_eq_some] at hs
    obtain ⟨-, ⟨⟩⟩ := hs
    exact h
  | consumer =>
    simp only [step, consume] at hs
    cases hc : s.consumer <;> simp only [hc] at hs
    · cases hs
    all_goals obtain rfl := Option.some.inj hs; exact h
  | snapshot =>
    simp only [step, Option.ite_none_right_eq_some] at hs
    obtain ⟨-, ⟨⟩⟩ := hs
    exact h

/-- An even `pubSeq` certifies that everything published is visible. -/
theorem visible_of_even {T : ℕ} (hT : Inv o s T) (hw : s.Window)
    (he : s.slot.pubSeq.toNat % 2 = 0) : s.published.length = T := by
  have h : ¬(s.producer ≠ .idle ∨ s.slot.batchN ≠ 0) := hw.not.mp (by omega)
  exact hT.flushed (by_contra fun hp => h (.inl hp)) (by_contra fun hb => h (.inr hb))

end Window

end Transport

end Loxis.Aarc
