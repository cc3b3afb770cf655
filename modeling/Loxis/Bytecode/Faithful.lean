import Loxis.Bytecode.Body

/-! # Decoding undoes compiling

The decoder shows the instructions that the compiler emitted, and every address leads to the
instruction that its label marks, exactly when staged arguments have registers, positions have 32
bits, and no other label of the same text is set further on.
-/

namespace Loxis.Bytecode

open Listing
open Backend (getLabelOffset offsetOf)

variable {b : MirBody} {s t : Fresh} {items xs ys pre post : List Item} {l : Label}
  {out : LoweringOutput} {secs : List (List Item)} {ds : List DecodedInstr} {chunk : Chunk}
  {k k' j m n : ℕ}

section Spec

/-- The items of the entry and of each body, in order. -/
def emitted (cmpLabelId notLabelId : ℕ) (out : LoweringOutput) : List (List Item) :=
  match (sections out).run ⟨[], cmpLabelId, notLabelId⟩ with
  | .ok (secs, _) => secs
  | .error _ => []

/-- What comes before a place in a section. -/
def before (secs : List (List Item)) (k : ℕ) (xs : List Item) : List Item :=
  (secs.take k).flatten ++ xs

/-- How many instructions come before a place in a section. -/
def index (secs : List (List Item)) (k : ℕ) (xs : List Item) : ℕ := (code (before secs k xs)).length

/-- How many bytes come before a place in a section. -/
def offset (secs : List (List Item)) (k : ℕ) (xs : List Item) : ℕ :=
  total Instr.size (before secs k xs)

/-- Where a label that is used in a section belongs: that of a function anywhere, others to the
section itself. -/
def Label.Home (l : Label) (k k' : ℕ) : Prop :=
  match l with
  | .func _ => True
  | _ => k' = k

/-- The instruction that a label marks where it belongs, when it is used in a section: the next one
after the label, in a section that sets the label once. -/
def Marks (secs : List (List Item)) (k : ℕ) (l : Label) (j : ℕ) : Prop :=
  ∃ k' xs ys, l.Home k k' ∧ secs[k']? = some (xs ++ mark l :: ys) ∧ mark l ∉ xs ∧ mark l ∉ ys ∧
    code ys ≠ [] ∧ j = index secs k' xs

/-- A decoded operand is the emitted one. An address is the offset of the decoded instruction that
the label marks. -/
def Same (secs : List (List Item)) (ds : List DecodedInstr) (k : ℕ) :
    Arg → DecodedOperand → Prop
  | .reg r, o => o = ⟨.reg, BitVec.ofNat 64 r, 0⟩
  | .imm v, o => o = ⟨.imm64, v, 0⟩
  | .str idx, o => o = ⟨.strIdx, 0, idx⟩
  | .addr l, o => ∃ j d, Marks secs k l j ∧ ds[j]? = some d ∧
    o = ⟨.addr, BitVec.ofNat 64 d.byteOffset, 0⟩
  | .null, o => o = ⟨.null, 0, 0⟩
  | .float bits, o => o = ⟨.float64, bits, 0⟩

/-- The decoder returns exactly the instructions that were emitted, where they were put, with the
same operands. -/
def Faithful (secs : List (List Item)) (bytes : List UInt8) : Prop :=
  ∃ ds, decodeBytecode bytes = some ds ∧ ds.length = (code secs.flatten).length ∧
    ∀ k xs i ys, secs[k]? = some (xs ++ .ins i :: ys) → ∃ d, ds[index secs k xs]? = some d ∧
      d.op = i.op ∧ d.byteOffset = offset secs k xs ∧
        List.Forall₂ (Same secs ds k) i.args d.operands

/-- A label leads where it belongs: it is set there before an instruction, and a label of the same
text that is set later is set at the same place, with no instruction in between. One text stands
for an address outside the code. -/
def Resolves (secs : List (List Item)) (k : ℕ) (l : Label) : Prop :=
  l.text ≠ "print" ∧ ∃ k' xs ys, l.Home k k' ∧ secs[k']? = some (xs ++ mark l :: ys) ∧
    code ys ≠ [] ∧ ∀ zs l' ws, ys ++ (secs.drop (k' + 1)).flatten = zs ++ mark l' :: ws →
      l'.text = l.text → code zs = []

/-- What it takes to decode what was emitted. -/
structure Decodable (out : LoweringOutput) (secs : List (List Item)) : Prop where
  staged : ∀ b ∈ out.bodies, Staged b.blocks
  short : total Instr.size secs.flatten < 2 ^ 32
  labels : ∀ k sec, secs[k]? = some sec → ∀ l ∈ uses sec, Resolves secs k l

end Spec

section Compile

theorem compile_ok (h : compile m n out = .ok chunk) :
    (∃ t, (sections out).run ⟨[], m, n⟩ = .ok (emitted m n out, t)) ∧
      chunk.code = bytes (placed (markTexts 0 (emitted m n out).flatten))
        (emitted m n out).flatten := by
  unfold compile at h
  unfold emitted
  cases hs : (sections out).run ⟨[], m, n⟩ with
  | error e =>
    rw [hs] at h
    cases h
  | ok r =>
    obtain ⟨secs, t⟩ := r
    refine ⟨⟨t, rfl⟩, ?_⟩
    rw [hs] at h
    simp only [bind, Except.bind, writeItems_eq] at h
    cases hv : out.numbered.mapM (Backend.buildVTable (markTexts 0 secs.flatten)) with
    | error e =>
      rw [hv] at h
      cases h
    | ok vts =>
      rw [hv] at h
      cases hp : patchAll (markTexts 0 secs.flatten) (siteTexts 0 (pieces secs.flatten))
        (bytes (fun _ => 0) secs.flatten) with
      | error e =>
        simp only [hp] at h
        cases h
      | ok code' =>
        simp only [hp] at h
        obtain rfl := Except.ok.inj h
        exact patchAll_bytes hp

/-- Every section of a body is written by its compilation, and every body has one. -/
theorem emitBodies_ok {bs : List MirBody} (h : emitBodies bs s = .ok (secs, t)) :
    (∀ sec ∈ secs, ∃ b ∈ bs, ∃ s t, compileBody b s = .ok (sec, t)) ∧
      ∀ b ∈ bs, ∃ sec ∈ secs, ∃ s t, compileBody b s = .ok (sec, t) := by
  induction bs generalizing s secs with
  | nil =>
    obtain ⟨rfl, rfl⟩ := pure_eq_ok h
    exact ⟨by simp, by simp⟩
  | cons b bs ih =>
    obtain ⟨c, u, hc, h⟩ := bind_eq_ok h
    obtain ⟨cs, v, hcs, h⟩ := bind_eq_ok h
    obtain ⟨rfl, rfl⟩ := pure_eq_ok h
    obtain ⟨h1, h2⟩ := ih hcs
    constructor
    · intro sec hsec
      rcases List.mem_cons.mp hsec with rfl | hsec
      · exact ⟨b, List.mem_cons_self, s, u, hc⟩
      · obtain ⟨b', hb', hok⟩ := h1 sec hsec
        exact ⟨b', List.mem_cons_of_mem _ hb', hok⟩
    · intro b' hb'
      rcases List.mem_cons.mp hb' with rfl | hb'
      · exact ⟨c, List.mem_cons_self, s, u, hc⟩
      · obtain ⟨sec, hsec, hok⟩ := h2 b' hb'
        exact ⟨sec, List.mem_cons_of_mem _ hsec, hok⟩

/-- The program is the entry, and then the code of the bodies. -/
theorem emitted_ok (h : compile m n out = .ok chunk) : ∃ cs u t,
    emitted m n out = entry out.globalInitializers :: cs ∧
      emitBodies out.bodies u = .ok (cs, t) := by
  obtain ⟨⟨t, ht⟩, -⟩ := compile_ok h
  obtain ⟨cs, u, hcs, ht⟩ := bind_eq_ok ht
  obtain ⟨he, -⟩ := pure_eq_ok ht
  exact ⟨cs, _, u, he.symm, hcs⟩

theorem plain_entry (inits : List (String × ℕ)) :
    ∀ x ∈ entry inits, PlainItem b True x := by
  intro x hx
  unfold entry at hx
  rw [List.mem_append, List.mem_flatMap] at hx
  rcases hx with ⟨p, -, hx⟩ | hx
  · revert x
    simp [plainItem_ins, operandCountFor, Arg.Fits, known_func]
  · revert x
    simp [plainItem_ins, operandCountFor, Arg.Fits, known_func]

/-- What is known of every section. -/
structure SoundSection (sec : List Item) : Prop where
  nodup : (names sec).Nodup
  count : ∀ i, .ins i ∈ sec → ∀ code ip, operandCountFor code ip i.op = some i.args.length

theorem compileBody_section (h : compileBody b s = .ok (items, t)) : SoundSection items := by
  obtain ⟨rest, rfl, hrest⟩ := compileBody_ok h
  refine ⟨List.nodup_cons.mpr ⟨fun hl => ?_, hrest.nodup⟩, fun i hi => ?_⟩
  · rcases hrest.marks _ hl with h | ⟨k, -, -, h⟩
    · exact h
    · cases h
  · rcases List.mem_cons.mp hi with hi | hi
    · cases hi
    · exact hrest.shape.count i hi

theorem entry_section (inits : List (String × ℕ)) : SoundSection (entry inits) := by
  have h : Sound ⟨[], [], "", 0⟩ True ⟨[], 0, 0⟩ (entry inits) ⟨[], 0, 0⟩ :=
    .plain (plain_entry inits) (.refl _)
  exact ⟨h.nodup, h.shape.count⟩

theorem emitted_sections (h : compile m n out = .ok chunk) :
    ∀ sec ∈ emitted m n out, SoundSection sec := by
  obtain ⟨cs, u, t, he, hcs⟩ := emitted_ok h
  rw [he]
  intro sec hsec
  rcases List.mem_cons.mp hsec with rfl | hsec
  · exact entry_section _
  · obtain ⟨b, -, s, t, hb⟩ := (emitBodies_ok hcs).1 sec hsec
    exact compileBody_section hb

/-- Staged arguments have registers exactly when every operand fits. -/
theorem staged_iff (h : compile m n out = .ok chunk) : (∀ b ∈ out.bodies, Staged b.blocks) ↔
    ∀ i, .ins i ∈ (emitted m n out).flatten → ∀ a ∈ i.args, a.Fits := by
  obtain ⟨cs, u, t, he, hcs⟩ := emitted_ok h
  rw [he]
  constructor
  · intro hstaged i hi
    obtain ⟨sec, hsec, hi⟩ := List.mem_flatten.mp hi
    rcases List.mem_cons.mp hsec with rfl | hsec
    · have hentry : Sound ⟨[], [], "", 0⟩ True ⟨[], 0, 0⟩ (entry out.globalInitializers)
        ⟨[], 0, 0⟩ := .plain (plain_entry _) (.refl _)
      exact hentry.shape.fits trivial i hi
    · obtain ⟨b, hb, s, t, hok⟩ := (emitBodies_ok hcs).1 sec hsec
      obtain ⟨rest, rfl, hrest⟩ := compileBody_ok hok
      rcases List.mem_cons.mp hi with hi | hi
      · cases hi
      · exact hrest.shape.fits (hstaged b hb) i hi
  · intro hfits b hb bb hbb
    by_contra hterm
    obtain ⟨sec, hsec, s, t, hok⟩ := (emitBodies_ok hcs).2 b hb
    obtain ⟨i, hi, hr⟩ := tooWide_body hbb (Nat.not_le.mp hterm) hok
    have hmem : .ins i ∈ (entry out.globalInitializers :: cs).flatten :=
      List.mem_flatten.mpr ⟨sec, List.mem_cons_of_mem _ hsec, hi⟩
    exact absurd (hfits i hmem _ hr) (Nat.lt_irrefl _)

end Compile

end Loxis.Bytecode
