import Loxis.Frontend.Template

/-! # What a string literal means

A spelled template is one token and yields its parts exactly when its spelling is clear. Where it
is not, the lexer runs past the closing quote or stops before it, or the parser takes text for an
interpolation or an interpolation for text.
-/

namespace Loxis.Frontend

variable {lit lit' raw l m t u w : List Byte} {c d : Byte} {n : ℕ} {its : List Item}
  {ps qs : List Part}

section Decoding

/-- Whatever follows, the raw text decodes to these bytes. -/
structure Decodes (lit t : List Byte) : Prop where
  append : ∀ w, unescapeString (lit ++ w) = (unescapeString w).map (t ++ ·)
  nil : lit = [] ↔ t = []

namespace Decodes

theorem empty : Decodes [] [] where
  append w := by
    rw [List.nil_append]
    exact (Option.map_id' ..).symm
  nil := Iff.rfl

theorem trans (h : Decodes lit t) (h' : Decodes lit' u) : Decodes (lit ++ lit') (t ++ u) where
  append w := by
    rw [List.append_assoc, h.append, h'.append, Option.map_map]
    simp only [Function.comp_def, List.append_assoc]
  nil := by rw [List.append_eq_nil_iff, List.append_eq_nil_iff, h.nil, h'.nil]

theorem single (hc : c ≠ backslash) : Decodes [c] [c] where
  append w := by
    rw [List.singleton_append, unescapeString.eq_def]
    simp [hc]
  nil := by simp

theorem escape (hc : c ∈ knownEscapes) : Decodes [backslash, c] [escaped c] where
  append w := by
    rw [List.cons_append, List.cons_append, List.nil_append, unescapeString.eq_def]
    simp [ne_x_of_known hc]
  nil := by simp

theorem hex (ha : (hexDigit c).isSome) (hb : (hexDigit d).isSome) :
    Decodes [backslash, 0x78, c, d] [16 * (hexDigit c).get ha + (hexDigit d).get hb] where
  append w := by
    obtain ⟨x, hx⟩ := Option.isSome_iff_exists.mp ha
    obtain ⟨y, hy⟩ := Option.isSome_iff_exists.mp hb
    simp only [List.cons_append, List.nil_append, hx, hy, Option.get_some]
    rw [unescapeString.eq_def]
    simp [stoi16, hx, hy]
  nil := by simp

theorem dollars (n : ℕ) : Decodes (List.replicate n dollar) (List.replicate n dollar) := by
  induction n with
  | zero => exact empty
  | succ n ih => exact (single backslash_ne_dollar.symm).trans ih

/-- The text that a decoded stretch becomes. -/
theorem flush (h : Decodes lit t) : flushLit lit = some (if t = [] then [] else [.text t]) := by
  unfold flushLit
  by_cases hl : lit = []
  · rw [if_pos hl, if_pos (h.nil.mp hl)]
  · rw [if_neg hl, if_neg (mt h.nil.mpr hl)]
    have hw := h.append []
    rw [List.append_nil] at hw
    rw [hw]
    simp [unescapeString]

end Decodes

end Decoding

section Parts

/-- The parts of a template after text that is not yet a part. -/
def collect (t : List Byte) : List Item → List Part
  | [] => if t = [] then [] else [.text t]
  | .byte s :: its => collect (t ++ [s.byte]) its
  | .code src :: its => (if t = [] then [] else [.text t]) ++ .code src :: collect [] its
  | .name id _ :: its => (if t = [] then [] else [.text t]) ++ .path id :: collect [] its

theorem collect_bytes (s : List Spelling) :
    collect t (s.map .byte ++ its) = collect (t ++ s.map Spelling.byte) its := by
  induction s generalizing t with
  | nil => simp
  | cons a s ih => simp [collect, ih]

theorem joinParts_text_text :
    joinParts (.text t :: .text u :: ps) = joinParts (.text (t ++ u) :: ps) := by
  cases t with
  | nil => rw [joinParts, List.nil_append]
  | cons a t =>
    cases u with
    | nil => simp [joinParts]
    | cons b u =>
      simp only [joinParts, List.cons_append]
      cases joinParts ps with
      | nil => rfl
      | cons p qs => cases p <;> simp

theorem collect_items (ps : List Piece) :
    collect t (ps.flatMap Piece.items) = joinParts (.text t :: ps.map Piece.part) := by
  induction ps generalizing t with
  | nil => cases t <;> simp [collect, joinParts]
  | cons p ps ih =>
    rw [List.flatMap_cons, List.map_cons]
    cases p with
    | text s => rw [Piece.items, collect_bytes, ih, Piece.part, joinParts_text_text]
    | code src => cases t <;> simp [Piece.items, Piece.part, collect, joinParts, ih]
    | name id h => cases t <;> simp [Piece.items, Piece.part, collect, joinParts, ih]

theorem Template.collect_items (T : Template) : collect [] T.items = T.parts := by
  rw [Template.items, Frontend.collect_items]
  rfl

/-- Text that was seen heads the parts. -/
theorem head_collect (its : List Item) (ht : t ≠ []) : ∃ v qs, collect t its = .text (t ++ v) :: qs := by
  induction its generalizing t with
  | nil => exact ⟨[], [], by simp [collect, ht]⟩
  | cons it its ih =>
    cases it with
    | byte s =>
      have hs : t ++ [s.byte] ≠ [] := by simp
      obtain ⟨v, qs, h⟩ := ih hs
      exact ⟨s.byte :: v, qs, by simp [collect, h]⟩
    | code src => exact ⟨[], .code src :: collect [] its, by simp [collect, ht]⟩
    | name id h => exact ⟨[], .path id :: collect [] its, by simp [collect, ht]⟩

end Parts

section Scan

/-- Raw text that was collected heads the parts, with what else joins it. -/
theorem head_scanParts (h : scanParts n lit raw = some ps) (hl : lit ≠ []) :
    ∃ w s qs, ps = .text s :: qs ∧ unescapeString (lit ++ w) = some s := by
  induction n generalizing lit raw ps with
  | zero => exact absurd h (by simp [scanParts])
  | succ n ih =>
    have more (c : Byte) {raw : List Byte} (h' : scanParts n (lit ++ [c]) raw = some ps) :
        ∃ w s qs, ps = .text s :: qs ∧ unescapeString (lit ++ w) = some s := by
      obtain ⟨w, s, qs, rfl, hs⟩ := ih h' (by simp)
      exact ⟨c :: w, s, qs, rfl, by simpa using hs⟩
    have flushed {ps' : List Part} (h' : flushLit lit = some ps') :
        ∃ s, ps' = [.text s] ∧ unescapeString (lit ++ []) = some s := by
      rw [flushLit, if_neg hl] at h'
      obtain ⟨s, hs, rfl⟩ := Option.map_eq_some_iff.mp h'
      exact ⟨s, rfl, by rw [List.append_nil, hs]⟩
    cases raw with
    | nil =>
      obtain ⟨s, rfl, hs⟩ := flushed h
      exact ⟨[], s, [], rfl, hs⟩
    | cons c l =>
      by_cases hc : c = dollar
      · subst hc
        cases l with
        | nil => exact more _ (scanParts_dollar.symm.trans h)
        | cons d m =>
          rw [scanParts_dollar_cons] at h
          split_ifs at h
          · exact more _ h
          · obtain ⟨r, -, h⟩ := Option.bind_eq_some_iff.mp h
            obtain ⟨ps', h', h⟩ := Option.bind_eq_some_iff.mp h
            obtain ⟨qs, -, rfl⟩ := Option.map_eq_some_iff.mp h
            obtain ⟨s, rfl, hs⟩ := flushed h'
            exact ⟨[], s, _, rfl, hs⟩
          · obtain ⟨ps', h', h⟩ := Option.bind_eq_some_iff.mp h
            obtain ⟨qs, -, rfl⟩ := Option.map_eq_some_iff.mp h
            obtain ⟨s, rfl, hs⟩ := flushed h'
            exact ⟨[], s, _, rfl, hs⟩
          · exact more _ h
      · exact more _ ((scanParts_cons hc).symm.trans h)

/-- Text already decoded is never shortened. -/
theorem Decodes.head (h : Decodes lit t) (hl : lit ≠ []) (hs : templateParts lit raw = some ps) :
    ∃ v qs, ps = .text (t ++ v) :: qs := by
  obtain ⟨w, s, qs, rfl, hw⟩ := head_scanParts hs hl
  rw [h.append] at hw
  obtain ⟨v, -, rfl⟩ := Option.map_eq_some_iff.mp hw
  exact ⟨v, qs, rfl⟩

end Scan

section Dollars

theorem opens_backslash : opens (backslash :: l) = false := rfl

/-- A stretch of doubled dollars after a single one is read in pairs from that one on. -/
theorem scan_run (its : List Item) : ∃ k,
    (∀ lit, templateParts lit (dollar :: writeItems its) =
      templateParts (lit ++ List.replicate k dollar)
        (dollar :: writeItems (its.dropWhile Item.isDollars))) ∧
    ∀ t, collect t its =
      collect (t ++ List.replicate k dollar) (its.dropWhile Item.isDollars) := by
  induction its with
  | nil => exact ⟨0, by simp, by simp⟩
  | cons it its ih =>
    cases hit : it.isDollars with
    | false => exact ⟨0, by simp [hit], by simp [hit]⟩
    | true =>
      obtain ⟨k, hk, hk'⟩ := ih
      obtain rfl : it = .byte .dollars := by
        unfold Item.isDollars at hit
        split at hit
        · rfl
        · exact absurd hit (by simp)
      refine ⟨k + 1, fun lit => ?_, fun t => ?_⟩
      · have hw : writeItems (.byte .dollars :: its) = dollar :: dollar :: writeItems its := rfl
        rw [hw, templateParts_dollars, hk, List.dropWhile_cons_of_pos hit, List.append_assoc]
        rfl
      · rw [collect, hk', List.dropWhile_cons_of_pos hit, List.append_assoc]
        rfl

/-- The escaped dollar's backslash takes the first dollar after it, wherever that came from. -/
theorem unescape_run (k : ℕ) : ∃ x, unescapeString (backslash :: List.replicate k dollar) = some x ∧
    ∀ v, x ≠ List.replicate (k + 1) dollar ++ v := by
  cases k with
  | zero => exact ⟨[backslash], rfl, fun v hv => backslash_ne_dollar (List.cons.inj hv).1⟩
  | succ k =>
    have hx := (Decodes.escape (c := dollar) (by decide)).append (List.replicate k dollar)
    have hr := (Decodes.dollars k).append []
    rw [List.append_nil] at hr
    rw [hr] at hx
    refine ⟨_, hx, fun v hv => ?_⟩
    have hlen := congrArg List.length hv
    simp at hlen
    omega

theorem head_templateParts_opens (hl : lit ≠ []) (hc : opens (c :: l) = true) (hd : c ≠ dollar)
    (h : templateParts lit (dollar :: c :: l) = some ps) :
    ∃ s qs, ps = .text s :: qs ∧ unescapeString lit = some s := by
  have flushed {ps' : List Part} (h' : flushLit lit = some ps') :
      ∃ s, ps' = [.text s] ∧ unescapeString lit = some s := by
    rw [flushLit, if_neg hl] at h'
    obtain ⟨s, hs, rfl⟩ := Option.map_eq_some_iff.mp h'
    exact ⟨s, rfl, hs⟩
  by_cases hb : c = lbrace
  · subst hb
    rw [templateParts_code] at h
    obtain ⟨r, -, h⟩ := Option.bind_eq_some_iff.mp h
    obtain ⟨ps', h', h⟩ := Option.bind_eq_some_iff.mp h
    obtain ⟨qs, -, rfl⟩ := Option.map_eq_some_iff.mp h
    obtain ⟨s, rfl, hs⟩ := flushed h'
    exact ⟨s, _, rfl, hs⟩
  · have hid : isIdStart c = true := by simpa [opens, hd, hb] using hc
    rw [templateParts_path hid] at h
    obtain ⟨ps', h', h⟩ := Option.bind_eq_some_iff.mp h
    obtain ⟨qs, -, rfl⟩ := Option.map_eq_some_iff.mp h
    obtain ⟨s, rfl, hs⟩ := flushed h'
    exact ⟨s, _, rfl, hs⟩

/-- After an escaped dollar and doubled ones, a brace or a name opens an interpolation. -/
theorem misread_text (h : Decodes lit t) (k : ℕ) (hc : opens (c :: l) = true) (hd : c ≠ dollar) :
    templateParts (lit ++ backslash :: List.replicate k dollar) (dollar :: c :: l) ≠
      some (collect (t ++ List.replicate (k + 1) dollar) its) := by
  intro he
  obtain ⟨s, qs, hs, hu⟩ := head_templateParts_opens (by simp) hc hd he
  have ht : t ++ List.replicate (k + 1) dollar ≠ [] := by simp
  obtain ⟨v, qs', hv⟩ := head_collect its ht
  obtain ⟨x, hx, hne⟩ := unescape_run k
  rw [h.append, hx] at hu
  rw [hv] at hs
  have hst := Part.text.inj (List.cons.inj hs).1
  rw [← Option.some.inj hu, List.append_assoc] at hst
  exact hne v (List.append_cancel_left hst).symm

/-- After an escaped dollar and doubled ones, an interpolation's dollar is text, and so is what
follows it. -/
theorem misread_part (h : Decodes lit t) (k : ℕ) (hb : c ≠ backslash) (hd : c ≠ dollar) :
    templateParts (lit ++ backslash :: List.replicate k dollar) (dollar :: dollar :: c :: l) ≠
      some (.text (t ++ List.replicate (k + 1) dollar) :: qs) := by
  intro he
  rw [templateParts_dollars, templateParts_cons hd] at he
  have hrun : List.replicate k dollar ++ [dollar] = dollar :: List.replicate k dollar :=
    List.replicate_succ'.symm
  have hdec : Decodes (lit ++ backslash :: List.replicate k dollar ++ [dollar] ++ [c])
      (t ++ List.replicate (k + 1) dollar ++ [c]) := by
    rw [List.append_assoc lit, List.cons_append, hrun]
    exact (h.trans ((Decodes.escape (by decide)).trans (.dollars k))).trans (.single hb)
  obtain ⟨v, qs', hv⟩ := hdec.head (by simp) he
  have hst := Part.text.inj (List.cons.inj hv).1
  have hlen := congrArg List.length hst
  simp at hlen

/-- An escaped dollar with doubled ones after it is misread before anything that opens. -/
theorem misread (h : Decodes lit t) (k : ℕ) (ho : opens (writeItems its) = true)
    (hds : its.head?.all (! ·.isDollars) = true) :
    templateParts (lit ++ backslash :: List.replicate k dollar) (dollar :: writeItems its) ≠
      some (collect (t ++ List.replicate (k + 1) dollar) its) := by
  cases its with
  | nil => exact absurd ho (by decide)
  | cons it its =>
    cases it with
    | byte s =>
      cases s with
      | plain c hc => exact misread_text h k ho hc.2.2
      | escape c hc => exact absurd (opens_backslash.symm.trans ho) (by decide)
      | hex a b ha hb => exact absurd (opens_backslash.symm.trans ho) (by decide)
      | dollars => exact absurd hds (by simp [Item.isDollars])
    | code src =>
      rw [collect, if_neg (by simp), List.singleton_append]
      exact misread_part h k (by decide) (by decide)
    | name id hid =>
      obtain ⟨c, l, rfl⟩ : ∃ c l, id = c :: l := by
        cases id with
        | nil => exact absurd hid.1 (by simp)
        | cons c l => exact ⟨c, l, rfl⟩
      have hc : isIdStart c = true := by simpa using hid.1
      rw [collect, if_neg (by simp), List.singleton_append]
      refine misread_part h k ?_ (ne_of_idStart hc).1
      rintro rfl
      exact absurd hc (by decide)

end Dollars

section Reading

/-- What the parser can read off a spelling: every fragment is seen as one piece and no escaped
dollar is taken for an interpolation. -/
structure Legible (its : List Item) : Prop where
  closed : ∀ src, .code src ∈ its → closed false 0 src = true
  quiet : quiet its = true

theorem legible_byte {s : Spelling} (hs : ∀ h, s ≠ .escape dollar h) :
    Legible (.byte s :: its) ↔ Legible its := by
  have hq : quiet (.byte s :: its) = quiet its := by
    cases s with
    | escape c hc =>
      have hcd : c ≠ dollar := by
        rintro rfl
        exact hs hc rfl
      simp [quiet, hcd]
    | plain | hex | dollars => rfl
  constructor
  · rintro ⟨h1, h2⟩
    exact ⟨fun src h => h1 src (List.mem_cons_of_mem _ h), hq ▸ h2⟩
  · rintro ⟨h1, h2⟩
    exact ⟨fun src h => h1 src (by simpa using h), hq ▸ h2⟩

theorem legible_name {id : List Byte} {h : IsName id} :
    Legible (.name id h :: its) ↔ Legible its := by
  constructor
  · rintro ⟨h1, h2⟩
    exact ⟨fun src h => h1 src (List.mem_cons_of_mem _ h), h2⟩
  · rintro ⟨h1, h2⟩
    exact ⟨fun src h => h1 src (by simpa using h), h2⟩

theorem legible_code {src : List Byte} :
    Legible (.code src :: its) ↔ closed false 0 src = true ∧ Legible its := by
  constructor
  · rintro ⟨h1, h2⟩
    exact ⟨h1 src List.mem_cons_self, fun s h => h1 s (List.mem_cons_of_mem _ h), h2⟩
  · rintro ⟨h0, h1, h2⟩
    refine ⟨fun s h => ?_, h2⟩
    obtain h | h := List.mem_cons.mp h
    · obtain rfl := Item.code.inj h
      exact h0
    · exact h1 s h

theorem legible_dropWhile : Legible (its.dropWhile Item.isDollars) ↔ Legible its := by
  induction its with
  | nil => exact Iff.rfl
  | cons it its ih =>
    cases hit : it.isDollars with
    | false => rw [List.dropWhile_cons_of_neg (by simp [hit])]
    | true =>
      rw [List.dropWhile_cons_of_pos hit, ih]
      cases it with
      | byte s =>
        cases s with
        | dollars => exact (legible_byte (by simp)).symm
        | plain | escape | hex => exact absurd hit (by simp [Item.isDollars])
      | code | name => exact absurd hit (by simp [Item.isDollars])

theorem legible_escaped {h : dollar ∈ knownEscapes} :
    Legible (.byte (.escape dollar h) :: its) ↔
      opens (writeItems (its.dropWhile Item.isDollars)) = false ∧
        Legible (its.dropWhile Item.isDollars) := by
  have hq : quiet (.byte (.escape dollar h) :: its) =
      (!opens (writeItems (its.dropWhile Item.isDollars)) && quiet its) := by simp [quiet]
  rw [legible_dropWhile]
  constructor
  · rintro ⟨h1, h2⟩
    rw [hq, Bool.and_eq_true, Bool.not_eq_true'] at h2
    exact ⟨h2.1, fun src hsrc => h1 src (List.mem_cons_of_mem _ hsrc), h2.2⟩
  · rintro ⟨h0, h1, h2⟩
    refine ⟨fun src hsrc => h1 src (by simpa using hsrc), ?_⟩
    rw [hq, Bool.and_eq_true, Bool.not_eq_true']
    exact ⟨h0, h2⟩

theorem spaced_dropWhile (h : Spaced its) : Spaced (its.dropWhile Item.isDollars) := by
  induction its with
  | nil => exact h
  | cons it its ih =>
    cases hit : it.isDollars with
    | false => rwa [List.dropWhile_cons_of_neg (by simp [hit])]
    | true =>
      rw [List.dropWhile_cons_of_pos hit]
      cases it with
      | byte s => exact ih h
      | code | name => exact absurd hit (by simp [Item.isDollars])

theorem head_dropWhile (its : List Item) :
    (its.dropWhile Item.isDollars).head?.all (! ·.isDollars) = true := by
  have h := List.head?_dropWhile_not Item.isDollars its
  cases hd : (its.dropWhile Item.isDollars).head? with
  | none => rfl
  | some it =>
    rw [hd] at h
    simpa using h

/-- An escaped dollar, given what the items after the doubled ones are read as. -/
theorem read_escaped {hk : dollar ∈ knownEscapes} (h : Decodes lit t)
    (ih : ∀ lit t, Decodes lit t →
      (templateParts lit (writeItems (its.dropWhile Item.isDollars)) =
        some (collect t (its.dropWhile Item.isDollars)) ↔
          Legible (its.dropWhile Item.isDollars))) :
    templateParts lit (backslash :: dollar :: writeItems its) =
      some (collect (t ++ [dollar]) its) ↔ Legible (.byte (.escape dollar hk) :: its) := by
  obtain ⟨k, hscan, hcollect⟩ := scan_run its
  have hds := head_dropWhile its
  rw [legible_escaped, templateParts_cons backslash_ne_dollar, hscan, hcollect, List.append_assoc,
    List.append_assoc, List.singleton_append, List.singleton_append, ← List.replicate_succ]
  generalize its.dropWhile Item.isDollars = tail at *
  cases ho : opens (writeItems tail) with
  | true =>
    simp only [Bool.true_eq_false, false_and, iff_false]
    exact misread h k ho hds
  | false =>
    have hrun : List.replicate k dollar ++ [dollar] = dollar :: List.replicate k dollar :=
      List.replicate_succ'.symm
    have hdec : Decodes (lit ++ (backslash :: List.replicate k dollar) ++ [dollar])
        (t ++ List.replicate (k + 1) dollar) := by
      rw [List.append_assoc, List.cons_append, hrun]
      exact h.trans ((Decodes.escape (by decide)).trans (.dollars k))
    have hlone : templateParts (lit ++ backslash :: List.replicate k dollar)
        (dollar :: writeItems tail) =
        templateParts (lit ++ (backslash :: List.replicate k dollar) ++ [dollar])
          (writeItems tail) := by
      cases hw : writeItems tail with
      | nil => exact templateParts_dollar
      | cons d m => exact templateParts_lone (hw ▸ ho)
    rw [hlone, ih _ _ hdec]
    exact (and_iff_right rfl).symm

/-- The parser reads a spelling as it is meant exactly when it is legible. -/
theorem templateParts_iff : ∀ (its : List Item) {lit t : List Byte}, Spaced its → Decodes lit t →
    (templateParts lit (writeItems its) = some (collect t its) ↔ Legible its)
  | [], lit, t, _, h => by
    rw [writeItems, List.flatMap_nil, templateParts_nil, h.flush]
    exact iff_of_true rfl ⟨by simp, rfl⟩
  | .byte (.plain c hc) :: its, lit, t, hsp, h => by
    have hw : writeItems (.byte (.plain c hc) :: its) = c :: writeItems its := rfl
    rw [hw, templateParts_cons hc.2.2, legible_byte (by simp)]
    exact templateParts_iff its hsp (h.trans (.single hc.1))
  | .byte (.escape c hc) :: its, lit, t, hsp, h => by
    have hw : writeItems (.byte (.escape c hc) :: its) = backslash :: c :: writeItems its := rfl
    rw [hw]
    by_cases hcd : c = dollar
    · subst hcd
      exact read_escaped h fun _ _ h' => templateParts_iff _ (spaced_dropWhile hsp) h'
    · rw [templateParts_cons backslash_ne_dollar, templateParts_cons hcd, List.append_assoc,
        legible_byte (by simp [hcd])]
      exact templateParts_iff its hsp (h.trans (.escape hc))
  | .byte (.hex a b ha hb) :: its, lit, t, hsp, h => by
    have hw : writeItems (.byte (.hex a b ha hb) :: its) =
      backslash :: 0x78 :: a :: b :: writeItems its := rfl
    rw [hw, templateParts_cons backslash_ne_dollar, templateParts_cons (by decide),
      templateParts_cons (ne_dollar_of_hex ha), templateParts_cons (ne_dollar_of_hex hb),
      List.append_assoc, List.append_assoc, List.append_assoc, legible_byte (by simp)]
    exact templateParts_iff its hsp (h.trans (.hex ha hb))
  | .byte .dollars :: its, lit, t, hsp, h => by
    have hw : writeItems (.byte .dollars :: its) = dollar :: dollar :: writeItems its := rfl
    rw [hw, templateParts_dollars, legible_byte (by simp)]
    exact templateParts_iff its hsp (h.trans (.single backslash_ne_dollar.symm))
  | .code src :: its, lit, t, hsp, h => by
    have hw : writeItems (.code src :: its) =
        dollar :: lbrace :: (src ++ rbrace :: writeItems its) := by
      simp [writeItems, Item.write]
    rw [hw, templateParts_code, h.flush, legible_code, ← templateParts_iff its hsp .empty]
    by_cases hsrc : closed false 0 src = true
    · -- the fragment is taken whole, and the rest is read on its own
      have htake : takeFragment false 1 (rbrace :: writeItems its) = some ([], writeItems its) := by
        rw [takeFragment.eq_def]
        rfl
      rw [takeFragment_append hsrc, htake]
      simp [hsrc, collect]
    · refine iff_of_false (fun he => ?_) fun hc => hsrc hc.1
      obtain ⟨r, hr, he⟩ := Option.bind_eq_some_iff.mp he
      obtain ⟨qs, -, he⟩ := Option.map_eq_some_iff.mp he
      have hcode : r.1 = src := Part.code.inj (List.cons.inj (List.append_cancel_left he)).1
      obtain ⟨f, rest⟩ := r
      obtain rfl : f = src := hcode
      exact hsrc (closed_of_takeFragment hr)
  | .name id hid :: its, lit, t, hsp, h => by
    obtain ⟨c, l, rfl⟩ : ∃ c l, id = c :: l := by
      cases id with
      | nil => exact absurd hid.1 (by simp)
      | cons c l => exact ⟨c, l, rfl⟩
    have hw : writeItems (.name (c :: l) hid :: its) = dollar :: c :: (l ++ writeItems its) := rfl
    have hall : ∀ b ∈ c :: l, isIdCont b = true := List.all_eq_true.mp hid.2
    have hstop : (writeItems its).takeWhile isIdCont = [] ∧
        (writeItems its).dropWhile isIdCont = writeItems its := by
      have hsp := hsp.1
      cases hits : writeItems its with
      | nil => exact ⟨rfl, rfl⟩
      | cons b m =>
        have hb : isIdCont b = false := by simpa [hits] using hsp
        exact ⟨List.takeWhile_cons_of_neg (by simp [hb]),
          List.dropWhile_cons_of_neg (by simp [hb])⟩
    rw [hw, templateParts_path (by simpa using hid.1), h.flush, legible_name,
      ← templateParts_iff its hsp.2 .empty, ← List.cons_append,
      List.takeWhile_append_of_pos hall, List.dropWhile_append_of_pos hall, hstop.1, hstop.2]
    simp [collect]
termination_by its => its.length
decreasing_by
  all_goals simp_wf
  all_goals have := (List.dropWhile_sublist Item.isDollars (l := its)).length_le; omega

end Reading

section Expression

/-- Without a dollar the scan only collects. -/
theorem templateParts_of_not_mem (h : dollar ∉ raw) :
    templateParts lit raw = flushLit (lit ++ raw) := by
  induction raw generalizing lit with
  | nil => rw [templateParts_nil, List.append_nil]
  | cons c l ih =>
    rw [List.mem_cons, not_or] at h
    rw [templateParts_cons (Ne.symm h.1), ih h.2, List.append_assoc, List.singleton_append]

theorem rawOf_quoted (raw : List Byte) : rawOf (quote :: raw ++ [quote]) = raw := by
  rw [rawOf, List.cons_append, List.tail_cons, List.dropLast_concat]

/-- A literal without a dollar is what the template scan would make of it. -/
theorem parseStringLit_quoted (raw : List Byte) :
    parseStringLit (quote :: raw ++ [quote]) = (templateParts [] raw).map .ofParts := by
  rw [parseStringLit, parseStringTemplate, rawOf_quoted]
  by_cases h : dollar ∈ raw
  · rw [if_pos (by simp [h])]
  · have hq : dollar ∉ quote :: raw ++ [quote] := by
      simp only [List.cons_append, List.mem_cons, List.mem_append, h, List.not_mem_nil]
      decide
    rw [if_neg hq, templateParts_of_not_mem h, List.nil_append, flushLit]
    by_cases hr : raw = []
    · subst hr
      rfl
    · rw [if_neg hr, Option.map_map]
      rfl

/-- No text of a template is empty. -/
theorem collect_ne_text_nil : collect [] its ≠ .text [] :: qs := by
  cases its with
  | nil => simp [collect]
  | cons it its =>
    cases it with
    | byte s =>
      obtain ⟨v, qs', h⟩ := head_collect its (List.cons_ne_nil s.byte [])
      rw [collect, List.nil_append, h]
      simp
    | code | name => simp [collect]

theorem eq_nil_of_collect (h : collect [] its = []) : its = [] := by
  cases its with
  | nil => rfl
  | cons it its =>
    cases it with
    | byte s =>
      obtain ⟨v, qs, h'⟩ := head_collect its (List.cons_ne_nil s.byte [])
      rw [collect, List.nil_append, h'] at h
      exact absurd h (by simp)
    | code | name => exact absurd h (by simp [collect])

theorem ofParts_inj (hp : ps ≠ [.text []]) (hq : qs ≠ [.text []])
    (h : StringExpr.ofParts ps = .ofParts qs) : ps = qs := by
  unfold StringExpr.ofParts at h
  split at h <;> split at h <;> simp_all

theorem ofParts_empty (h : StringExpr.ofParts [.text []] = .ofParts qs) (hq : qs ≠ [.text []]) :
    qs = [] := by
  match qs with
  | [] => rfl
  | [.text s] => exact absurd (congrArg (fun s => [Part.text s]) (StringExpr.lit.inj h)).symm hq
  | [.code _] | [.path _] | _ :: _ :: _ => exact absurd h (by simp [StringExpr.ofParts])

/-- The expression of a literal determines its parts. -/
theorem parseStringLit_iff (T : Template) :
    parseStringLit T.source = some (.ofParts T.parts) ↔ Legible T.items := by
  rw [← templateParts_iff T.items T.spaced .empty, T.collect_items, Template.source,
    parseStringLit_quoted]
  constructor
  · intro h
    obtain ⟨qs, hqs, h⟩ := Option.map_eq_some_iff.mp h
    have hparts : T.parts ≠ [.text []] := T.collect_items ▸ collect_ne_text_nil
    have hne : qs ≠ [.text []] := by
      rintro rfl
      have hnil := ofParts_empty h hparts
      rw [← T.collect_items] at hnil
      rw [eq_nil_of_collect hnil] at hqs
      exact absurd hqs (by decide)
    rw [hqs, ofParts_inj hne hparts h]
  · intro h
    rw [h]
    rfl

end Expression

section Lexing

theorem literalEnd_length {str : Bool} {r : List Byte} (h : literalEnd str n l = some r) :
    r.length < l.length := by
  fun_induction literalEnd str n l
  case case1 | case2 | case5 | case9 | case15 => exact absurd h (by simp)
  case case4 =>
    obtain rfl := Option.some.inj h
    exact Nat.lt_succ_self _
  case case3 ih | case6 ih | case10 ih | case16 ih =>
    exact (ih h).trans (Nat.lt_add_of_pos_right (Nat.succ_pos 1))
  case case7 ih | case8 ih | case11 ih | case12 ih | case13 ih | case14 ih | case17 ih =>
    exact (ih h).trans (Nat.lt_succ_self _)

theorem plain_of_hex (h : (hexDigit c).isSome) : Plain c ∧ c ≠ lbrace ∧ c ≠ rbrace := by
  refine ⟨⟨?_, ?_, ?_⟩, ?_, ?_⟩
  all_goals
    rintro rfl
    exact absurd h (by decide)

theorem plain_of_idCont (h : isIdCont c = true) : Plain c ∧ c ≠ lbrace ∧ c ≠ rbrace := by
  refine ⟨⟨?_, ?_, ?_⟩, ?_, ?_⟩
  all_goals
    rintro rfl
    exact absurd h (by decide)

theorem literalEnd_escape : literalEnd false n (backslash :: c :: l) = literalEnd false n l := by
  rw [literalEnd.eq_def]
  by_cases hn : n = 0
  · subst hn
    simp
  · simp [hn, (by decide : backslash ≠ lbrace), (by decide : backslash ≠ rbrace),
      quote_ne_backslash.symm]

theorem literalEnd_dollar : literalEnd false n (dollar :: l) =
    if n = 0 ∧ l.head? = some lbrace then literalEnd false 1 l.tail else literalEnd false n l := by
  rw [literalEnd.eq_def]
  by_cases hn : n = 0
  · subst hn
    cases l with
    | nil => simp [backslash_ne_dollar.symm, (by decide : dollar ≠ quote)]
    | cons c m =>
      by_cases hc : c = lbrace <;>
        simp [hc, backslash_ne_dollar.symm, (by decide : dollar ≠ quote)]
  · simp [hn, lbrace_ne_dollar.symm, (by decide : dollar ≠ rbrace), (by decide : dollar ≠ quote),
      backslash_ne_dollar.symm]

theorem literalEnd_plain (hc : Plain c) : literalEnd false n (c :: l) =
    literalEnd false (if c = lbrace then if n = 0 then 0 else n + 1
      else if c = rbrace then n - 1 else n) l := by
  obtain ⟨h1, h2, h3⟩ := hc
  rw [literalEnd.eq_def]
  by_cases hn : n = 0
  · subst hn
    simp [h1, h2, h3]
  · simp only [hn, h1, h2, if_false, Bool.false_eq_true]
    split_ifs <;> rfl

theorem literalEnd_quote : literalEnd false n (quote :: l) =
    if n = 0 then some l else literalEnd true n l := by
  rw [literalEnd.eq_def]
  simp [quote_ne_backslash, (by decide : quote ≠ lbrace), (by decide : quote ≠ rbrace)]

/-- A fragment that is one piece leaves the depth as it found it. -/
theorem literalEnd_closed {str : Bool} {e : List Byte} (h : closed str n e = true) (d : ℕ)
    (l : List Byte) : literalEnd str (n + d + 1) (e ++ l) = literalEnd false (d + 1) l := by
  fun_induction closed str n e
  case case1 =>
    simp only [Bool.and_eq_true, Bool.not_eq_true', beq_iff_eq] at h
    obtain ⟨rfl, rfl⟩ := h
    rw [Nat.zero_add, List.nil_append]
  case case2 | case8 => exact absurd h (by simp)
  case case3 b _ _ _ ih =>
    rw [← ih h, List.cons_append, List.cons_append, literalEnd.eq_def]
    cases b <;> simp [quote_ne_backslash.symm, (by decide : backslash ≠ lbrace),
      (by decide : backslash ≠ rbrace)]
  case case4 ih | case5 ih | case10 ih =>
    rw [← ih h, List.cons_append, literalEnd.eq_def]
    simp [*]
  case case6 ih =>
    rw [← ih h, List.cons_append, literalEnd.eq_def]
    simp [*, (by decide : quote ≠ lbrace), (by decide : quote ≠ rbrace)]
  case case7 k _ _ _ _ ih =>
    rw [← ih h, List.cons_append, literalEnd.eq_def, Nat.add_right_comm k 1 d]
    simp [*]
  case case9 k _ _ _ _ _ hk ih =>
    have hd : k - 1 + d + 1 = k + d := by omega
    rw [← ih h, List.cons_append, literalEnd.eq_def, hd]
    simp [*]

theorem literalEnd_idConts (hl : ∀ b ∈ l, isIdCont b = true) :
    literalEnd false n (l ++ w) = literalEnd false n w := by
  induction l with
  | nil => rfl
  | cons c l ih =>
    obtain ⟨hc, h1, h2⟩ := plain_of_idCont (hl c List.mem_cons_self)
    rw [List.cons_append, literalEnd_plain hc, if_neg h1, if_neg h2,
      ih fun b hb => hl b (List.mem_cons_of_mem _ hb)]

/-- What is left of an item's text after it: a doubled dollar's second one. -/
def Item.left (it : Item) : List Byte := if it.isDollars then [dollar] else []

/-- One item, after an item that leaves nothing. -/
theorem literalEnd_write {it : Item} (hit : ∀ src, it = .code src → closed false 0 src = true) :
    literalEnd false n (it.write ++ w) =
      literalEnd false (depthAfter false n it) (it.left ++ w) := by
  cases it with
  | byte s =>
    cases s with
    | plain c hc =>
      simp only [Item.write, Spelling.write, List.singleton_append, literalEnd_plain hc, depthAfter,
        and_true]
      rfl
    | escape c hc => exact literalEnd_escape
    | hex a b ha hb =>
      obtain ⟨ha, ha1, ha2⟩ := plain_of_hex ha
      obtain ⟨hb, hb1, hb2⟩ := plain_of_hex hb
      simp only [Item.write, Spelling.write, List.cons_append, List.nil_append]
      rw [literalEnd_escape, literalEnd_plain ha, if_neg ha1, if_neg ha2, literalEnd_plain hb,
        if_neg hb1, if_neg hb2]
      rfl
    | dollars =>
      simp only [Item.write, Spelling.write, List.cons_append, List.nil_append]
      rw [literalEnd_dollar, if_neg (by simp [lbrace_ne_dollar.symm])]
      rfl
  | code src =>
    have hw : (Item.code src).write ++ w = dollar :: lbrace :: (src ++ rbrace :: w) := by
      simp [Item.write]
    have hopen : literalEnd false n (dollar :: lbrace :: (src ++ rbrace :: w)) =
        literalEnd false (n + 1) (src ++ rbrace :: w) := by
      rw [literalEnd_dollar]
      by_cases hn : n = 0
      · subst hn
        rfl
      · rw [if_neg (by simp [hn]), literalEnd_plain (by decide), if_pos rfl, if_neg hn]
    have hclose := literalEnd_closed (hit src rfl) n (rbrace :: w)
    rw [Nat.zero_add] at hclose
    rw [hw, hopen, hclose, literalEnd_plain (by decide), if_neg (by decide), if_pos rfl]
    rfl
  | name id hid =>
    obtain ⟨c, l, rfl⟩ : ∃ c l, id = c :: l := by
      cases id with
      | nil => exact absurd hid.1 (by simp)
      | cons c l => exact ⟨c, l, rfl⟩
    have hc : isIdStart c = true := by simpa using hid.1
    have hw : (Item.name (c :: l) hid).write ++ w = dollar :: ((c :: l) ++ w) := rfl
    rw [hw, literalEnd_dollar, if_neg (by simp [(ne_of_idStart hc).2]),
      literalEnd_idConts (List.all_eq_true.mp hid.2)]
    rfl

/-- One item, after any item. Only a brace of the text right after a doubled dollar is counted. -/
theorem literalEnd_left {it : Item} (prev : Bool)
    (hit : ∀ src, it = .code src → closed false 0 src = true) :
    literalEnd false n ((if prev then [dollar] else []) ++ (it.write ++ w)) =
      literalEnd false (depthAfter prev n it) (it.left ++ w) := by
  cases prev with
  | false => exact literalEnd_write hit
  | true =>
    rw [if_pos rfl, List.singleton_append, literalEnd_dollar]
    by_cases h : n = 0 ∧ (it.write ++ w).head? = some lbrace
    · obtain ⟨rfl, hw⟩ := h
      obtain ⟨hc, rfl⟩ : ∃ hc, it = .byte (.plain lbrace hc) := by
        cases it with
        | byte s =>
          cases s with
          | plain c hc =>
            obtain rfl := Option.some.inj hw
            exact ⟨hc, rfl⟩
          | escape | hex | dollars => exact absurd (Option.some.inj hw) (by decide)
        | code | name => exact absurd (Option.some.inj hw) (by decide)
      rw [if_pos ⟨rfl, hw⟩]
      rfl
    · rw [if_neg h, literalEnd_write hit]
      congr 1
      unfold depthAfter
      split
      · rename_i c _
        by_cases hc : c = lbrace
        · have hn : n ≠ 0 := fun hn => h ⟨hn, congrArg some hc⟩
          rw [if_pos hc, if_pos hc, if_neg (by simp [hn]), if_neg (by simp [hn])]
        · rw [if_neg hc, if_neg hc]
      · rfl

/-- The lexer's depth at the end of a spelling is the depth of its braces. -/
theorem literalEnd_items (hl : l.head? ≠ some lbrace) (prev : Bool) (n : ℕ)
    (hits : ∀ src, .code src ∈ its → closed false 0 src = true) :
    literalEnd false n ((if prev then [dollar] else []) ++ (writeItems its ++ l)) =
      literalEnd false (openBraces prev n its) l := by
  induction its generalizing prev n with
  | nil =>
    cases prev with
    | false => rfl
    | true =>
      rw [if_pos rfl, List.singleton_append, writeItems, List.flatMap_nil, List.nil_append,
        literalEnd_dollar, if_neg (by simp [hl])]
      rfl
  | cons it its ih =>
    have hw : writeItems (it :: its) ++ l = it.write ++ (writeItems its ++ l) := by
      rw [writeItems, List.flatMap_cons, List.append_assoc, writeItems]
    rw [hw, literalEnd_left prev fun src h => hits src (h ▸ List.mem_cons_self), openBraces,
      ← ih _ _ fun src h => hits src (List.mem_cons_of_mem _ h)]
    rfl

theorem literalStr_iff {lexeme rest : List Byte} :
    literalStr (quote :: lexeme ++ rest) = some (quote :: lexeme, rest) ↔
      literalEnd false 0 (lexeme ++ rest) = some rest := by
  rw [literalStr, List.cons_append, List.tail_cons]
  constructor
  · intro h
    obtain ⟨r, hr, h⟩ := Option.map_eq_some_iff.mp h
    rw [hr, (Prod.mk.inj h).2]
  · intro h
    rw [h, Option.map_some, ← List.cons_append]
    have hlen : (quote :: lexeme ++ rest).length - rest.length = (quote :: lexeme).length := by
      rw [List.length_append, Nat.add_sub_cancel]
    rw [hlen, List.take_left]

/-- The lexer takes a legible literal as one token exactly when its braces are matched. -/
theorem literalStr_source_iff (T : Template) (h : Legible T.items) (rest : List Byte) :
    literalStr (T.source ++ rest) = some (T.source, rest) ↔ openBraces false 0 T.items = 0 := by
  have hend := literalEnd_items (l := quote :: rest) (by simp [(by decide : quote ≠ lbrace)])
    false 0 h.closed
  rw [if_neg (by decide), List.nil_append] at hend
  rw [Template.source, List.cons_append, literalStr_iff, List.append_assoc, List.singleton_append,
    hend, literalEnd_quote]
  constructor
  · intro h
    by_contra hd
    rw [if_neg hd] at h
    exact absurd (literalEnd_length h) (Nat.lt_irrefl _)
  · intro hd
    rw [if_pos hd]

end Lexing

/-- A literal is one token and means its parts exactly when its spelling is clear. -/
theorem means_parts_iff (T : Template) (rest : List Byte) :
    (literalStr (T.source ++ rest) = some (T.source, rest) ∧
      parseStringLit T.source = some (.ofParts T.parts)) ↔ T.Clear := by
  rw [parseStringLit_iff]
  constructor
  · rintro ⟨hlex, h⟩
    exact ⟨h.closed, h.quiet, (literalStr_source_iff T h rest).mp hlex⟩
  · rintro ⟨hclosed, hquiet, hbraces⟩
    exact ⟨(literalStr_source_iff T ⟨hclosed, hquiet⟩ rest).mpr hbraces, hclosed, hquiet⟩

/-- The text `${x}`, its dollar escaped. -/
def escapedInterpolation : Template where
  pieces := [.text [.escape dollar (by decide), .plain lbrace (by decide), .plain 0x78 (by decide),
    .plain rbrace (by decide)]]
  spaced := trivial

/-- The parser interpolates what the lexer and the decoder take for text. -/
theorem escaped_dollar_interpolates : ¬ ∀ (T : Template) (rest : List Byte),
    literalStr (T.source ++ rest) = some (T.source, rest) ∧
      parseStringLit T.source = some (.ofParts T.parts) := by
  intro h
  have hparse := (h escapedInterpolation []).2
  revert hparse
  decide +kernel

end Loxis.Frontend
