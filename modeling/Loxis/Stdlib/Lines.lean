import Loxis.Stdlib.Str

/-! # Lines of text files

The writer puts a line feed between lines, the reader takes one as the end of a line and drops a
carriage return in front of it. So a last line that is empty leaves no trace.
-/

namespace Loxis.Stdlib.Lines

/-- The files of the host, as the two primitives on texts see them. -/
structure Host (σ : Type*) where
  readText : Str → σ → Str
  writeText : Str → Str → σ → ℤ × σ

/-- What was written last is read back unchanged. -/
def Host.Stores {σ : Type*} (host : Host σ) : Prop :=
  ∀ path content s, host.readText path (host.writeText path content s).2 = content

/-- The scan of a text: the lines so far, and the start of the one that it is in. -/
def readLoop (content : Str) (start i : ℕ) (out : List Str) : List Str :=
  if i < content.length then
    if strchar content i = 10 then
      let last := if start < i ∧ strchar content ((i : ℤ) - 1) = 13 then i - 1 else i
      readLoop content (i + 1) (i + 1) (out ++ [strslice content start ((last : ℤ) - start)])
    else readLoop content start (i + 1) out
  else if start < i then out ++ [strslice content start ((i : ℤ) - start)]
  else out
termination_by content.length - i

section

variable {σ : Type*} (host : Host σ)

def read (path : Str) (s : σ) : List Str := readLoop (host.readText path s) 0 0 []

def write (path : Str) (lines : List Str) (s : σ) : ℤ × σ :=
  host.writeText path (joinLoop lines (chr 10) 0 []) s

end

/-! ## Reading back -/

variable {content x rest : Str} {lines out : List Str} {start i : ℕ}

/-- A line of a list that survives being written and read: no line feed, and no carriage return
at its end. -/
def Plain (x : Str) : Prop := 10 ∉ x ∧ x.getLast? ≠ some 13

/-- The lines that leave a trace. -/
def kept : List Str → List Str
  | [] => []
  | [x] => if x = [] then [] else [x]
  | x :: y :: lines => x :: kept (y :: lines)

theorem kept_eq_self_iff : kept lines = lines ↔ lines.getLast? ≠ some [] := by
  induction lines using kept.induct with
  | case1 => simp [kept]
  | case2 => simp [kept]
  | case3 x hx => simp [kept, hx]
  | case4 x y lines ih =>
    rw [kept, List.cons.injEq, ih, List.getLast?_cons_cons]
    exact and_iff_right rfl

theorem ten_eq {b : UInt8} : (b.toNat : ℤ) = 10 ↔ b = 10 := by
  rw [← UInt8.toNat_inj]
  exact Nat.cast_inj (R := ℤ) (n := 10)

theorem strslice_line (h : content.drop start = x ++ rest) :
    strslice content start (((start + x.length : ℕ) : ℤ) - start) = x := by
  have hlen : ((start + x.length : ℕ) : ℤ) - start = x.length := by
    push_cast
    omega
  rw [hlen, strslice_natCast, h, List.take_left]

/-- Inside a line the scan only moves on. -/
theorem readLoop_run (h : content.drop i = x ++ rest) (hx : 10 ∉ x) :
    readLoop content start i out = readLoop content start (i + x.length) out := by
  induction x generalizing i with
  | nil => rfl
  | cons b x ih =>
    rw [List.mem_cons, not_or] at hx
    obtain ⟨hb, hx⟩ := hx
    have hi : i < content.length := by
      by_contra hi
      rw [List.drop_eq_nil_of_le (not_lt.mp hi)] at h
      exact List.cons_ne_nil _ _ h.symm
    have hdrop : content.drop (i + 1) = x ++ rest := by
      rw [← List.drop_drop, h]
      rfl
    rw [readLoop, if_pos hi, strchar_of_drop h, if_neg (mt ten_eq.mp (Ne.symm hb)), ih hdrop hx,
      List.length_cons, Nat.add_assoc, Nat.add_comm 1]

/-- At the end of a plain line nothing is stripped. -/
theorem readLoop_lf (h : content.drop start = x ++ 10 :: rest) (hx : Plain x) :
    readLoop content start start out =
      readLoop content (start + x.length + 1) (start + x.length + 1) (out ++ [x]) := by
  have hdrop : content.drop (start + x.length) = 10 :: rest := by
    rw [← List.drop_drop, h, List.drop_left]
  have hi : start + x.length < content.length := by
    by_contra hi
    rw [List.drop_eq_nil_of_le (not_lt.mp hi)] at hdrop
    exact List.cons_ne_nil _ _ hdrop.symm
  have hcr : ¬ (start < start + x.length ∧
      strchar content (((start + x.length : ℕ) : ℤ) - 1) = 13) := by
    rintro ⟨hlt, hcr⟩
    have hlen : x.length - 1 < x.length := by omega
    have hcast : ((start + x.length : ℕ) : ℤ) - 1 = ((start + (x.length - 1) : ℕ) : ℤ) := by omega
    have hlast : content[start + (x.length - 1)]? = x.getLast? := by
      rw [← List.getElem?_drop, h, List.getElem?_append_left hlen, List.getLast?_eq_getElem?]
    rw [hcast, strchar_natCast, hlast] at hcr
    refine hx.2 ?_
    cases hget : x.getLast? with
    | none =>
      rw [hget] at hcr
      exact absurd hcr (by decide)
    | some b =>
      rw [hget] at hcr
      have hcr : (b.toNat : ℤ) = 13 := hcr
      have hnat : b.toNat = (13 : UInt8).toNat := Nat.cast_inj.mp hcr
      rw [UInt8.toNat_inj.mp hnat]
  rw [readLoop_run h hx.1, readLoop, if_pos hi, strchar_of_drop hdrop, if_pos (by decide)]
  dsimp only
  rw [if_neg hcr, strslice_line h]

/-- The rest of a text without a line feed is a line, unless it is empty. -/
theorem readLoop_rest (h : content.drop start = x) (hx : 10 ∉ x) (hi : start ≤ content.length) :
    readLoop content start start out = if x = [] then out else out ++ [x] := by
  have hlen : start + x.length = content.length := by
    rw [← h, List.length_drop]
    omega
  have h : content.drop start = x ++ [] := by rw [h, List.append_nil]
  rw [readLoop_run h hx, readLoop, hlen, if_neg (lt_irrefl _), ← hlen]
  by_cases hx0 : x = []
  · subst hx0
    rw [if_pos rfl, if_neg (by simp)]
  · have hpos := List.length_pos_iff.mpr hx0
    rw [if_neg hx0, if_pos (by omega), strslice_line h]

/-- A written list is read back, but for a last line that is empty. -/
theorem readLoop_spec (hlines : ∀ x ∈ lines, Plain x)
    (h : content.drop i = [10].intercalate lines) (hi : i ≤ content.length) :
    readLoop content i i out = out ++ kept lines := by
  induction lines using kept.induct generalizing i out with
  | case1 =>
    have h : content.drop i = [] := h
    rw [readLoop_rest h List.not_mem_nil hi, if_pos rfl, kept, List.append_nil]
  | case2 =>
    have h : content.drop i = [] := h
    rw [readLoop_rest h List.not_mem_nil hi, if_pos rfl, kept, if_pos rfl, List.append_nil]
  | case3 x hx =>
    have hplain := hlines x List.mem_cons_self
    rw [intercalate_cons, List.map_nil, List.flatten_nil, List.append_nil] at h
    rw [readLoop_rest h hplain.1 hi, if_neg hx, kept, if_neg hx]
  | case4 x y lines ih =>
    rw [intercalate_cons_cons, List.append_assoc] at h
    have hdrop : content.drop (i + x.length + 1) = [10].intercalate (y :: lines) := by
      rw [Nat.add_assoc, ← List.drop_drop, h, ← List.append_assoc]
      exact List.drop_left' (by simp)
    have hlen : i + x.length + 1 ≤ content.length := by
      have := congrArg List.length h
      simp only [List.length_drop, List.length_append, List.length_singleton] at this
      omega
    rw [readLoop_lf h (hlines x List.mem_cons_self),
      ih (fun z hz => hlines z (List.mem_cons_of_mem _ hz)) hdrop hlen, kept, List.append_assoc,
      List.singleton_append]

/-! ## Files -/

variable {σ : Type*} {host : Host σ}

/-- Reading lines undoes writing them exactly when the last one is not empty: the lines of a file
end at line feeds, and the writer puts none behind the last. -/
theorem read_write_iff (hhost : host.Stores) (hlines : ∀ x ∈ lines, Plain x) (path : Str) (s : σ) :
    read host path (write host path lines s).2 = lines ↔ lines.getLast? ≠ some [] := by
  have hread : read host path (write host path lines s).2 = kept lines := by
    rw [read, write, hhost]
    refine (readLoop_spec hlines ?_ (Nat.zero_le _)).trans (List.nil_append _)
    exact (List.drop_zero).trans join_eq
  rw [hread, kept_eq_self_iff]

/-- A host whose files are a map from paths to texts. -/
def memory : Host (Str → Str) where
  readText path s := s path
  writeText path content s := (1, Function.update s path content)

theorem memory_stores : memory.Stores := fun _ _ _ => Function.update_self ..

theorem read_write_two :
    read memory [97] (write memory [97] [[], [98]] fun _ => []).2 = [[], [98]] ↔
      [[], [98]].getLast? ≠ some ([] : Str) :=
  read_write_iff memory_stores (by simp [Plain]) [97] fun _ => []

/-- One empty line is lost. -/
theorem empty_line_lost : ¬ ∀ lines : List Str, (∀ x ∈ lines, Plain x) →
    read memory [97] (write memory [97] lines fun _ => []).2 = lines := by
  intro h
  have hplain : ∀ x ∈ ([[]] : List Str), Plain x := by simp [Plain]
  have hread : read memory [97] (write memory [97] [[]] fun _ => []).2 = kept [[]] := by
    rw [read, write, memory_stores]
    exact readLoop_spec hplain (List.drop_zero.trans join_eq) (Nat.zero_le _)
  have heq := (h [[]] hplain).symm.trans hread
  exact List.cons_ne_nil _ _ heq

end Loxis.Stdlib.Lines
