import Loxis.Backend.Machine

/-! # Where code and labels end up

The code of a body lies at its position in the chunk with its labels resolved, a label
that is defined once resolves to where it was defined, and the function that holds an
instruction is found by its position.
-/

namespace Loxis.Backend

variable {g : Surroundings} {out : LoweringOutput} {bodies : List Emitted} {c : Chunk}
  {b d : MirBody} {e : Emitted} {start k l r : ℕ}

/-- The register of a local that has one. -/
def regOf (l : ℕ) : ℕ := if l = 0 then 0 else if l + 15 < 240 then l + 15 else l + 15 + 16

theorem localToReg_eq_ok : localToReg b l = .ok r ↔ l < 4064 ∧ r = regOf l := by
  unfold localToReg regOf
  by_cases h0 : l = 0
  · simp [h0, eq_comm]
  · by_cases h1 : 4064 ≤ l
    · simp [h0, h1, Nat.not_lt.mpr h1]
    · by_cases h2 : l + 15 < 240
      · simp [h0, h1, h2, Nat.not_le.mp h1, eq_comm]
      · simp [h0, h1, h2, Nat.not_le.mp h1, eq_comm]

/-- Locals live outside the argument and the staging registers. -/
theorem regOf_range (h : l < 4064) : regOf l < 4096 ∧ (regOf l < 240 ∨ 256 ≤ regOf l) := by
  unfold regOf
  split_ifs <;> omega

theorem regOf_inj {l' : ℕ} (h : regOf l = regOf l') : l = l' := by
  unfold regOf at h
  split_ifs at h <;> omega

section Layout

theorem mem_layout (h : (start, e) ∈ layout k bodies) : ∃ xs ys, bodies = xs ++ e :: ys ∧
    start = k + (xs.flatMap Emitted.code).length := by
  induction bodies generalizing k with
  | nil => cases h
  | cons c cs ih =>
    rcases List.mem_cons.mp h with he | h
    · obtain ⟨rfl, rfl⟩ := Prod.mk.inj he
      exact ⟨[], cs, rfl, rfl⟩
    · obtain ⟨xs, ys, rfl, hs⟩ := ih h
      refine ⟨c :: xs, ys, rfl, ?_⟩
      rw [hs, List.flatMap_cons, List.length_append, Nat.add_assoc]

theorem le_of_mem_layout (h : (start, e) ∈ layout k bodies) : k ≤ start := by
  obtain ⟨xs, ys, -, rfl⟩ := mem_layout h
  exact Nat.le_add_right _ _

theorem exists_layout (k : ℕ) (h : e ∈ bodies) : ∃ start, (start, e) ∈ layout k bodies := by
  induction bodies generalizing k with
  | nil => cases h
  | cons c cs ih =>
    rcases List.mem_cons.mp h with rfl | h
    · exact ⟨k, List.mem_cons_self⟩
    · obtain ⟨start, hs⟩ := ih (k + c.code.length) h
      exact ⟨start, List.mem_cons_of_mem _ hs⟩

/-- The function that holds a position is the body placed around it. -/
theorem find_function (h : (start, e) ∈ layout k bodies) {i : ℕ} (h₁ : start ≤ i)
    (h₂ : i < start + e.code.length) :
    ((layout k bodies).map fun p => (⟨p.1, p.1 + p.2.code.length, p.2.maxReg⟩ :
      FunctionDebugInfo)).find? (fun f => f.start ≤ i ∧ i < f.stop) =
        some ⟨start, start + e.code.length, e.maxReg⟩ := by
  induction bodies generalizing k with
  | nil => cases h
  | cons c cs ih =>
    rw [layout, List.map_cons, List.find?_cons]
    rcases List.mem_cons.mp h with he | h
    · obtain ⟨rfl, rfl⟩ := Prod.mk.inj he
      simp [h₁, h₂]
    · have := le_of_mem_layout h
      have hno : ¬ (k ≤ i ∧ i < k + c.code.length) := by omega
      simp only [hno, decide_false]
      exact ih h

end Layout

section Link

/-- Consecutive instructions of a chunk. -/
def Slice (c : Chunk) (i : ℕ) (xs : List (Instr ℕ)) : Prop :=
  ∃ pre post, c.code = pre ++ xs ++ post ∧ pre.length = i

theorem Slice.append {xs ys : List (Instr ℕ)} (h : Slice c k (xs ++ ys)) :
    Slice c k xs ∧ Slice c (k + xs.length) ys := by
  obtain ⟨pre, post, he, rfl⟩ := h
  exact ⟨⟨pre, ys ++ post, by simp [he], rfl⟩, ⟨pre ++ xs, post, by simp [he], by simp⟩⟩

theorem Slice.getElem {x : Instr ℕ} {xs : List (Instr ℕ)} (h : Slice c k (x :: xs)) :
    c.code[k]? = some x ∧ Slice c (k + 1) xs := by
  obtain ⟨pre, post, he, rfl⟩ := h
  refine ⟨by simp [he], pre ++ [x], post, by simp [he], by simp⟩

theorem Slice.le {xs : List (Instr ℕ)} (h : Slice c k xs) : k + xs.length ≤ c.code.length := by
  obtain ⟨pre, post, he, rfl⟩ := h
  simp [he]

/-- The code of a linked chunk. -/
theorem link_code (h : link out bodies = .ok c) :
    c.code = (entry out.globalInitializers ++ bodies.flatMap Emitted.code).map
      (Instr.map (offsetOf (labelOffsets out bodies))) := by
  simp only [link, bind, Except.bind] at h
  split at h
  · cases h
  · split at h
    · cases h
    · cases h
      rfl

theorem slice_body (h : link out bodies = .ok c)
    (he : (start, e) ∈ layout (entry out.globalInitializers).length bodies) :
    Slice c start (e.code.map (Instr.map (offsetOf (labelOffsets out bodies)))) := by
  obtain ⟨xs, ys, rfl, rfl⟩ := mem_layout he
  rw [Slice, link_code h]
  set f := Instr.map (offsetOf (labelOffsets out (xs ++ e :: ys)))
  exact ⟨(entry out.globalInitializers ++ xs.flatMap Emitted.code).map f,
    (ys.flatMap Emitted.code).map f, by simp, by simp⟩

theorem frameMaximum_eq (h : link out bodies = .ok c)
    (he : (start, e) ∈ layout (entry out.globalInitializers).length bodies) {m : Machine}
    (h₁ : start ≤ m.ip) (h₂ : m.ip < start + e.code.length) : m.frameMaximum c = e.maxReg := by
  have hf : c.functions = (layout (entry out.globalInitializers).length bodies).map fun p =>
      ⟨p.1, p.1 + p.2.code.length, p.2.maxReg⟩ := by
    simp only [link, bind, Except.bind] at h
    split at h
    · cases h
    · split at h
      · cases h
      · cases h
        rfl
  unfold Machine.frameMaximum
  rw [hf, find_function he h₁ h₂]

end Link

section Emitted

theorem mapM_ok {α β ε : Type} {f : α → Except ε β} {xs : List α} {ys : List β}
    (h : xs.mapM f = .ok ys) : xs.length = ys.length ∧
      ∀ (i : ℕ) (x : α), xs[i]? = some x → ∃ y, ys[i]? = some y ∧ f x = .ok y := by
  induction xs generalizing ys with
  | nil =>
    cases h
    exact ⟨rfl, fun i x hx => by simp at hx⟩
  | cons x xs ih =>
    rw [List.mapM_cons] at h
    cases hx : f x with
    | error e =>
      rw [hx] at h
      cases h
    | ok y =>
      cases hxs : xs.mapM f with
      | error e =>
        rw [hx, hxs] at h
        cases h
      | ok zs =>
        rw [hx, hxs] at h
        cases h
        obtain ⟨hlen, hget⟩ := ih hxs
        refine ⟨congrArg (· + 1) hlen, fun i x' hx' => ?_⟩
        cases i with
        | zero => exact ⟨y, rfl, Option.some.inj hx' ▸ hx⟩
        | succ i => exact hget i x' hx'

/-- What is found among the inputs is found among the outputs. -/
theorem mapM_find {α β ε : Type} {f : α → Except ε β} {xs : List α} {ys : List β} {p : α → Bool}
    {q : β → Bool} {x : α} (h : xs.mapM f = .ok ys) (hpq : ∀ x y, f x = .ok y → q y = p x)
    (hx : xs.find? p = some x) : ∃ y, ys.find? q = some y ∧ f x = .ok y := by
  induction xs generalizing ys with
  | nil => cases hx
  | cons a as ih =>
    rw [List.mapM_cons] at h
    cases ha : f a with
    | error e =>
      rw [ha] at h
      cases h
    | ok b =>
      cases has : as.mapM f with
      | error e =>
        rw [ha, has] at h
        cases h
      | ok bs =>
        rw [ha, has] at h
        cases h
        rw [List.find?_cons] at hx ⊢
        rw [hpq a b ha]
        cases hp : p a with
        | true =>
          rw [hp] at hx
          exact ⟨b, rfl, Option.some.inj hx ▸ ha⟩
        | false =>
          rw [hp] at hx
          exact ih has hx

/-- The parts of an emitted body. -/
structure Emits (g : Surroundings) (b : MirBody) (e : Emitted) : Prop where
  body : e.body = b
  prologue : prologueFrom b 0 b.paramCount = .ok e.prologue
  blocks : b.blocks.mapM (emitBlock g b) = .ok e.blocks
  maxReg : maxLocalRegister b = .ok e.maxReg

theorem emits_of_ok (h : emitBody g b = .ok e) : Emits g b e := by
  simp only [emitBody, bind, Except.bind] at h
  split at h
  · cases h
  · next hp =>
    split at h
    · cases h
    · next hb =>
      split at h
      · cases h
      · next hm =>
        cases h
        exact ⟨rfl, hp, hb, hm⟩

theorem exists_emitted (h : out.bodies.mapM (emitBody g) = .ok bodies) (hb : b ∈ out.bodies) :
    ∃ e start, Emits g b e ∧
      (start, e) ∈ layout (entry out.globalInitializers).length bodies := by
  obtain ⟨i, hi⟩ := List.mem_iff_getElem?.mp hb
  obtain ⟨e, he, hok⟩ := (mapM_ok h).2 i b hi
  obtain ⟨start, hs⟩ := exists_layout (entry out.globalInitializers).length
    (List.mem_of_getElem? he)
  exact ⟨e, start, emits_of_ok hok, hs⟩

end Emitted

section Labels

/-- The names that the bodies define. -/
def labelNames (out : LoweringOutput) : List String :=
  out.bodies.flatMap fun b => b.name :: (List.range b.blocks.length).map (blockLabel b.name)

theorem map_fst_layout (hb : out.bodies.mapM (emitBody g) = .ok bodies) (k : ℕ) :
    ((layout k bodies).flatMap fun p => p.2.labels p.1).map Prod.fst = labelNames out := by
  unfold labelNames
  generalize out.bodies = bs at hb
  induction bs generalizing bodies k with
  | nil =>
    cases hb
    rfl
  | cons b bs ih =>
    rw [List.mapM_cons] at hb
    cases he : emitBody g b with
    | error _ =>
      rw [he] at hb
      cases hb
    | ok e =>
      cases hes : bs.mapM (emitBody g) with
      | error _ =>
        rw [he, hes] at hb
        cases hb
      | ok es =>
        rw [he, hes] at hb
        cases hb
        have hem := emits_of_ok he
        rw [layout, List.flatMap_cons, List.map_append, ih _ hes, List.flatMap_cons]
        congr 1
        simp only [Emitted.labels, List.map_cons, List.map_map, hem.body, (mapM_ok hem.blocks).1]
        rfl

theorem map_fst_labelOffsets (hb : out.bodies.mapM (emitBody g) = .ok bodies) :
    (labelOffsets out bodies).map Prod.fst = labelNames out := map_fst_layout hb _

/-- A label that is defined once is where it was defined. -/
theorem offsetOf_eq {labels : List (String × ℕ)} {n : String} {i : ℕ}
    (hnd : (labels.map Prod.fst).Nodup) (hm : (n, i) ∈ labels) (hn : n ≠ "print") :
    getLabelOffset labels n = .ok i := by
  have hf : labels.reverse.find? (fun p => p.1 = n) = some (n, i) := by
    cases hq : labels.reverse.find? (fun p => p.1 = n) with
    | none =>
      rw [List.find?_eq_none] at hq
      simpa using hq (n, i) (List.mem_reverse.mpr hm)
    | some q =>
      have h1 : q.1 = n := by simpa using List.find?_some hq
      have h2 := List.mem_reverse.mp (List.mem_of_find?_eq_some hq)
      exact congrArg some (List.inj_on_of_nodup_map hnd h2 hm h1)
  unfold getLabelOffset
  rw [if_neg hn, hf]

theorem blockLabel_ne_print (n : String) (i : ℕ) : blockLabel n i ≠ "print" := by
  intro h
  have h' : '_' ∈ (blockLabel n i).toList := by simp [blockLabel]
  rw [h] at h'
  revert h'
  decide

end Labels

section VTables

theorem buildVTable_fst {labels : List (String × ℕ)} {lc : LoweredClass} {p : ℕ × VTableEntry}
    (h : buildVTable labels lc = .ok p) : p.1 = lc.typeId := by
  simp only [buildVTable, bind, Except.bind] at h
  repeat' split at h
  all_goals cases h
  rfl

/-- The offsets of an interface are those that its slots name in the table. -/
theorem buildItable_ok {offsets : List ℕ} {ite p : ℕ × List ℕ}
    (h : buildItable offsets ite = .ok p) : p.1 = ite.1 ∧ p.2.length = ite.2.length ∧
      ∀ k sm : ℕ, ite.2[k]? = some sm → p.2[k]? = offsets[sm]? := by
  simp only [buildItable, bind, Except.bind] at h
  split at h
  · cases h
  · next os ho =>
    cases h
    obtain ⟨hlen, hget⟩ := mapM_ok ho
    refine ⟨rfl, hlen.symm, fun k sm hk => ?_⟩
    obtain ⟨o, hk', hok⟩ := hget k sm hk
    split at hok
    · next o' ho' =>
      cases hok
      rw [ho', hk']
    · cases hok

/-- The method table of a class. -/
theorem link_vtable (h : link out bodies = .ok c) (hnd : (out.numbered.map (·.typeId)).Nodup)
    {lc : LoweredClass} (hlc : lc ∈ out.numbered) :
    buildVTable (labelOffsets out bodies) lc = .ok (lc.typeId, c.vtables lc.typeId) := by
  simp only [link, bind, Except.bind] at h
  split at h
  · cases h
  · next tables ht =>
    split at h
    · cases h
    · cases h
      obtain ⟨i, hi⟩ := List.mem_iff_getElem?.mp hlc
      obtain ⟨hlen, hget⟩ := mapM_ok ht
      obtain ⟨p, hp, hok⟩ := hget i lc hi
      have hfst := buildVTable_fst hok
      have hf : tables.reverse.find? (fun q => q.1 = lc.typeId) = some p := by
        cases hq : tables.reverse.find? (fun q => q.1 = lc.typeId) with
        | none =>
          rw [List.find?_eq_none] at hq
          simpa [hfst] using hq p (List.mem_reverse.mpr (List.mem_of_getElem? hp))
        | some q =>
          have h₁ : q.1 = lc.typeId := by simpa using List.find?_some hq
          obtain ⟨j, hj⟩ := List.mem_iff_getElem?.mp
            (List.mem_reverse.mp (List.mem_of_find?_eq_some hq))
          have hjlt : j < out.numbered.length := by
            rw [hlen]
            exact (List.getElem?_eq_some_iff.mp hj).1
          obtain ⟨q', hq', hok'⟩ := hget j _ (List.getElem?_eq_getElem hjlt)
          obtain rfl := Option.some.inj (hj.symm.trans hq')
          have hij : j = i := by
            refine (List.getElem?_inj (by simpa) hnd).mp ?_
            rw [List.getElem?_map, List.getElem?_map, hi, List.getElem?_eq_getElem hjlt]
            exact congrArg some ((buildVTable_fst hok').symm.trans h₁)
          subst hij
          exact congrArg some (Option.some.inj (hj.symm.trans hp))
      simp only [hf]
      rw [hok, ← hfst]

theorem offsetOf_of_ok {labels : List (String × ℕ)} {n : String} {i : ℕ}
    (h : getLabelOffset labels n = .ok i) : offsetOf labels n = i := by
  rw [offsetOf, h]

/-- A method in the table of a class is where its body is. -/
theorem vtable_method (h : link out bodies = .ok c) (hnd : (out.numbered.map (·.typeId)).Nodup)
    {lc : LoweredClass} (hlc : lc ∈ out.numbered) {slot : ℕ} {n : String}
    (hn : lc.vtableMethodNames[slot]? = some n) :
    (c.vtables lc.typeId).methodOffsets[slot]? = some (offsetOf (labelOffsets out bodies) n) := by
  have hv := link_vtable h hnd hlc
  simp only [buildVTable, bind, Except.bind] at hv
  split at hv
  · cases hv
  · next offsets ho =>
    split at hv
    · cases hv
    · obtain ⟨o, hget, hok⟩ := (mapM_ok ho).2 slot n hn
      obtain ⟨-, he⟩ := Prod.mk.inj (Except.ok.inj hv)
      rw [← he, offsetOf_of_ok hok]
      exact hget

/-- A method of an interface in the table of a class is where its body is. -/
theorem itable_method (h : link out bodies = .ok c) (hnd : (out.numbered.map (·.typeId)).Nodup)
    {lc : LoweredClass} (hlc : lc ∈ out.numbered) {iface method sm : ℕ} {ite : ℕ × List ℕ}
    {n : String}
    (hite : lc.itables.find? (fun ite => ite.1 = iface ∧ method < ite.2.length) = some ite)
    (hsm : ite.2[method]? = some sm) (hn : lc.vtableMethodNames[sm]? = some n) :
    ((c.vtables lc.typeId).itable.find? fun ite => ite.1 = iface ∧ method < ite.2.length).bind
      (fun ite => ite.2[method]?) = some (offsetOf (labelOffsets out bodies) n) := by
  have hv := link_vtable h hnd hlc
  simp only [buildVTable, bind, Except.bind] at hv
  split at hv
  · cases hv
  · next offsets ho =>
    split at hv
    · cases hv
    · next itable hi =>
      obtain ⟨-, he⟩ := Prod.mk.inj (Except.ok.inj hv)
      have hpred : ∀ x y, buildItable offsets x = .ok y →
          decide (y.1 = iface ∧ method < y.2.length) =
            decide (x.1 = iface ∧ method < x.2.length) := fun x y hxy => by
        obtain ⟨h₁, h₂, -⟩ := buildItable_ok hxy
        rw [h₁, h₂]
      obtain ⟨y, hy, hok⟩ := mapM_find hi hpred hite
      obtain ⟨o, hget, hoff⟩ := (mapM_ok ho).2 sm n hn
      rw [← he, hy, offsetOf_of_ok hoff]
      exact ((buildItable_ok hok).2.2 method sm hsm).trans hget

end VTables

section Placed

/-- A compiled program in which no name is defined twice. -/
structure Compiled (g : Surroundings) (out : LoweringOutput) (bodies : List Emitted) (c : Chunk) :
    Prop where
  emitted : out.bodies.mapM (emitBody g) = .ok bodies
  linked : link out bodies = .ok c
  nodup : (labelNames out).Nodup

/-- Where a label is in a compiled program. -/
def address (out : LoweringOutput) (bodies : List Emitted) : String → ℕ :=
  offsetOf (labelOffsets out bodies)

/-- Where a body of a compiled program is. -/
structure Placed (g : Surroundings) (out : LoweringOutput) (bodies : List Emitted) (c : Chunk)
    (b : MirBody) (e : Emitted) : Prop where
  emits : Emits g b e
  body : b.name ≠ "print" →
    Slice c (address out bodies b.name) (e.code.map (Instr.map (address out bodies)))
  block : ∀ k bb, b.blocks[k]? = some bb → ∃ code, emitBlock g b bb = .ok code ∧
    Slice c (address out bodies (blockLabel b.name k)) (code.map (Instr.map (address out bodies))) ∧
    ∀ m : Machine, address out bodies (blockLabel b.name k) ≤ m.ip →
      m.ip < address out bodies (blockLabel b.name k) + code.length → m.frameMaximum c = e.maxReg

theorem Compiled.placed (h : Compiled g out bodies c) (hb : b ∈ out.bodies) :
    ∃ e, Placed g out bodies c b e := by
  obtain ⟨e, start, hem, he⟩ := exists_emitted h.emitted hb
  have hnd : ((labelOffsets out bodies).map Prod.fst).Nodup := by
    rw [map_fst_labelOffsets h.emitted]
    exact h.nodup
  have hlab : ∀ p ∈ e.labels start, p ∈ labelOffsets out bodies := fun p hp =>
    List.mem_flatMap.mpr ⟨(start, e), he, hp⟩
  have hat : ∀ n i, (n, i) ∈ e.labels start → n ≠ "print" → address out bodies n = i :=
    fun n i hm hn => by
      rw [address, offsetOf, offsetOf_eq hnd (hlab _ hm) hn]
  have hs := slice_body h.linked he
  have hblk := hs
  rw [Emitted.code, List.map_append] at hblk
  replace hblk := hblk.append.2
  refine ⟨e, hem, fun hn => ?_, fun k bb hk => ?_⟩
  · rw [hat b.name start (by rw [← hem.body]; exact List.mem_cons_self) hn]
    exact hs
  · obtain ⟨code, hcode, hok⟩ := (mapM_ok hem.blocks).2 k bb hk
    have hlt : k < e.blocks.length := (List.getElem?_eq_some_iff.mp hcode).1
    have hpos := hat (blockLabel b.name k) _ (by
      rw [← hem.body]
      exact List.mem_cons_of_mem _ (List.mem_map.mpr ⟨k, List.mem_range.mpr hlt, rfl⟩))
      (blockLabel_ne_print _ _)
    have hsplit : e.blocks.flatten = (e.blocks.take k).flatten ++ (code ++
        (e.blocks.drop (k + 1)).flatten) := by
      conv_lhs => rw [← List.take_append_drop k e.blocks]
      rw [List.flatten_append, List.drop_eq_getElem_cons hlt, List.flatten_cons,
        (List.getElem?_eq_some_iff.mp hcode).2]
    rw [hsplit, List.map_append, List.map_append] at hblk
    have hslice := hblk.append.2.append.1
    rw [List.length_map, List.length_map] at hslice
    rw [hpos]
    refine ⟨code, hok, hslice, fun m h₁ h₂ => frameMaximum_eq h.linked he (by omega) ?_⟩
    rw [Emitted.code, hsplit]
    simp only [List.length_append]
    omega

theorem emitBlock_ne_nil {bb : BasicBlock} {code : List (Instr String)}
    (h : emitBlock g b bb = .ok code) : 0 < code.length := by
  simp only [emitBlock, bind, Except.bind] at h
  split at h
  · cases h
  · next t ht =>
    cases h
    have : 0 < t.length := by
      cases hb : bb.term with
      | other head tail =>
        rw [hb] at ht
        cases ht
        exact Nat.succ_pos _
      | call | callIndirect | closureCall | virtualCall | interfaceCall =>
        rw [hb] at ht
        simp only [emitTerminator, bind, Except.bind] at ht
        repeat' split at ht
        all_goals cases ht
        all_goals simp
    rw [List.length_append]
    omega

/-- Blocks have code. -/
theorem Placed.block_lt (h : Placed g out bodies c b e) (hk : k < b.blocks.length) :
    address out bodies (blockLabel b.name k) < c.code.length := by
  obtain ⟨code, hok, hs, -⟩ := h.block k _ (List.getElem?_eq_getElem hk)
  have := hs.le
  have := emitBlock_ne_nil hok
  rw [List.length_map] at *
  omega

theorem Placed.prologue (h : Placed g out bodies c b e) (hn : b.name ≠ "print") :
    Slice c (address out bodies b.name) (e.prologue.map (Instr.map (address out bodies))) := by
  have hs := h.body hn
  rw [Emitted.code, List.map_append] at hs
  exact hs.append.1

theorem Placed.entry_lt (h : Placed g out bodies c b e) (hn : b.name ≠ "print")
    (hne : b.blocks ≠ []) : address out bodies b.name < c.code.length := by
  have hle := (h.body hn).le
  obtain ⟨bb, bs, hb⟩ := List.exists_cons_of_ne_nil hne
  obtain ⟨code, hcode, hok⟩ := (mapM_ok h.emits.blocks).2 0 bb (by rw [hb]; rfl)
  have hpos := emitBlock_ne_nil hok
  have hlen := (List.sublist_flatten_of_mem (List.mem_of_getElem? hcode)).length_le
  rw [List.length_map, Emitted.code, List.length_append] at hle
  omega

end Placed

end Loxis.Backend
