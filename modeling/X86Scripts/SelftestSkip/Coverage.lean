import X86Scripts.Lib.Frame
import X86Scripts.Lib.Outcome
import X86Scripts.SelftestSkip.Digest
import X86Scripts.SelftestSkip.LsTree

/-!
# What the digest covers

The digest of a tree against its consumed files: every path that ends in `.lean`, and four names.

* `Path.consumed`: the set as it is declared, on the bytes of a path.
* `Path.quoted`, `Path.padded`, `Path.stray`: the paths whose name in a listing misleads the
  suffix test, because git quotes it or because it has spaces that are stripped.
* **`entriesOf_lsTree`**: what is collected from the listing of a tree.
* **`hashed_eq_iff`**: two trees have one hashed string exactly if they show the same entries.
* **`digest_covers_iff`**: it is the same map on the consumed set exactly if the misleading files
  agree.
* **`digest_misses`**: two trees the digest does not tell apart.
-/

namespace X86Scripts.Skip

open X86Scripts.Regex
open X86Scripts.Py
open X86Scripts.Digits
open X86Scripts.Outcome
open X86Scripts.Frame

/-! ## The consumed set -/

/-- The bytes of an ASCII text. -/
def asciiBytes (s : Str) : List UInt8 := s.map fun c => UInt8.ofNat c.toNat

/-- **The declared set**: `*.lean` and the four names. -/
def Path.consumed (p : Path) : Bool :=
  (asciiBytes ".lean".toList).isSuffixOf p.bytes ||
    [asciiBytes "lakefile.toml".toList, asciiBytes "lean-toolchain".toList,
      asciiBytes "lake-manifest.json".toList, asciiBytes ".github/workflows/ci.yml".toList].contains
        p.bytes

/-- **The two trees have the same map on the declared set.** -/
def SameConsumed (t₁ t₂ : GitTree) : Prop :=
  ∀ p : Path, p.consumed = true → t₁.blob? p = t₂.blob? p

/-- The path, as the text of its bytes. -/
def Path.text (p : Path) : Str := p.bytes.map byteChar

/-- A consumed path that git quotes, so that its name ends in a quote. -/
def Path.quoted (p : Path) : Bool := p.consumed && !p.plain

/-- A consumed path with spaces in front, which are stripped. -/
def Path.padded (p : Path) : Bool := p.consumed && p.plain && decide (strip p.text ≠ p.text)

/-- A consumed path that is listed as it is. -/
def Path.clean (p : Path) : Bool := p.consumed && p.plain && decide (strip p.text = p.text)

/-- A path outside the set that is a name of the set once its spaces are stripped. -/
def Path.stray (p : Path) : Bool := !p.consumed && p.plain && isConsumed (strip p.text)

/-- A path that a listing shows as a name of the set. -/
def Path.seen (p : Path) : Bool := p.plain && isConsumed (strip p.text)

/-- The stripped names and the blobs of the files at some paths. -/
def GitTree.part (t : GitTree) (q : Path → Bool) : List (Str × Str) :=
  (t.entries.filter fun e => q e.path).map fun e => (strip e.path.text, e.oid.hex)

/-- The trees show the same names with the same blobs. -/
def SameSeen (t₁ t₂ : GitTree) : Prop := (t₁.part Path.seen).Perm (t₂.part Path.seen)

/-- **The trees agree on the misleading files**: the consumed ones git quotes or that are padded,
and, by stripped name and blob, those outside the set that are taken for members. -/
structure MaskedAgree (t₁ t₂ : GitTree) : Prop where
  named : ∀ p : Path, p.quoted = true ∨ p.padded = true → t₁.blob? p = t₂.blob? p
  stray : (t₁.part Path.stray).Perm (t₂.part Path.stray)

/-! ## Names in a listing -/

theorem byteChar_toNat {b : UInt8} (h : isPlainByte b = true) :
    (byteChar b).toNat = b.toNat ∧ 0x20 ≤ b.toNat ∧ b.toNat ≤ 0x7e := by
  have hall : ∀ n : Fin 256, isPlainByte (UInt8.ofFin n) = true →
      (byteChar (UInt8.ofFin n)).toNat = n ∧ 0x20 ≤ n.val ∧ n.val ≤ 0x7e := by
    decide +kernel
  exact hall b.toFin h

theorem byteChar_inj {b b' : UInt8} (h : isPlainByte b = true) (h' : isPlainByte b' = true)
    (heq : byteChar b = byteChar b') : b = b' := by
  apply UInt8.toNat_inj.mp
  rw [← (byteChar_toNat h).1, ← (byteChar_toNat h').1, heq]

theorem map_byteChar_inj {l l' : List UInt8} (h : ∀ b ∈ l, isPlainByte b = true)
    (h' : ∀ b ∈ l', isPlainByte b = true) (heq : l.map byteChar = l'.map byteChar) : l = l' := by
  induction l generalizing l' with
  | nil => exact (List.map_eq_nil_iff.mp heq.symm).symm
  | cons b l ih =>
      cases l' with
      | nil => cases heq
      | cons b' l' =>
          obtain ⟨hb, hl⟩ := List.forall_mem_cons.mp h
          obtain ⟨hb', hl'⟩ := List.forall_mem_cons.mp h'
          obtain ⟨hhead, htail⟩ := List.cons.inj heq
          rw [byteChar_inj hb hb' hhead, ih hl hl' htail]

theorem Path.plain_bytes {p : Path} (h : p.plain = true) : ∀ b ∈ p.bytes, isPlainByte b = true :=
  List.all_eq_true.mp h

/-- A plain path is known by its text. -/
theorem Path.text_inj {p q : Path} (hp : p.plain = true) (hq : q.plain = true)
    (h : p.text = q.text) : p = q := by
  have hbytes := map_byteChar_inj (plain_bytes hp) (plain_bytes hq) h
  cases p
  cases q
  cases hbytes
  rfl

theorem Path.text_printable {p : Path} (h : p.plain = true) :
    ∀ c ∈ p.text, 0x20 ≤ c.toNat ∧ c.toNat ≤ 0x7e := by
  intro c hc
  obtain ⟨b, hb, rfl⟩ := List.mem_map.mp hc
  obtain ⟨hval, hlo, hhi⟩ := byteChar_toNat (plain_bytes h b hb)
  rw [hval]
  exact ⟨hlo, hhi⟩

/-- A text of plain bytes and the bytes it is the text of. -/
theorem asciiBytes_map {s : Str} (h : (s.all fun c => byteChar (UInt8.ofNat c.toNat) == c) = true) :
    (asciiBytes s).map byteChar = s := by
  induction s with
  | nil => rfl
  | cons c s ih =>
      obtain ⟨hc, hs⟩ := Bool.and_eq_true_iff.mp (List.all_cons ▸ h)
      rw [asciiBytes, List.map_cons, List.map_cons, beq_iff_eq.mp hc]
      exact congrArg (c :: ·) (ih hs)

/-- **On a plain path the name test is the declared set.** -/
theorem Path.consumed_eq {p : Path} (h : p.plain = true) : p.consumed = isConsumed p.text := by
  have hbytes := plain_bytes h
  have hname : ∀ s : Str, ((asciiBytes s).all isPlainByte &&
      s.all fun c => byteChar (UInt8.ofNat c.toNat) == c) = true →
      (p.bytes = asciiBytes s ↔ p.text = s) := by
    intro s hs
    obtain ⟨hplain, hmap⟩ := Bool.and_eq_true_iff.mp hs
    constructor
    · intro heq
      rw [text, heq, asciiBytes_map hmap]
    · intro heq
      apply map_byteChar_inj hbytes (List.all_eq_true.mp hplain)
      rw [asciiBytes_map hmap]
      exact heq
  have hsuffix : asciiBytes ".lean".toList <:+ p.bytes ↔ ".lean".toList <:+ p.text := by
    constructor
    · rintro ⟨t, ht⟩
      refine ⟨t.map byteChar, ?_⟩
      rw [text, ← ht, List.map_append, asciiBytes_map (by decide)]
    · rintro ⟨t, ht⟩
      obtain ⟨l₁, l₂, hl, -, h₂⟩ := List.map_eq_append_iff.mp ht.symm
      have hsub : ∀ b ∈ l₂, isPlainByte b = true :=
        fun b hb => hbytes b (hl ▸ List.mem_append_right l₁ hb)
      have hl₂ : l₂ = asciiBytes ".lean".toList := by
        apply map_byteChar_inj hsub (List.all_eq_true.mp (by decide))
        rw [h₂, asciiBytes_map (by decide)]
      exact ⟨l₁, hl₂ ▸ hl.symm⟩
  rw [Bool.eq_iff_iff, consumed, isConsumed, Bool.or_eq_true, Bool.or_eq_true,
    List.isSuffixOf_iff_suffix, List.isSuffixOf_iff_suffix, hsuffix, List.contains_iff_mem,
    List.contains_iff_mem, or_comm]
  apply or_congr_left
  simp only [CONSUMED_EXACT, List.mem_cons, List.not_mem_nil, or_false]
  rw [hname _ (by decide), hname _ (by decide), hname _ (by decide), hname _ (by decide)]

/-- Stripping keeps a name of the set in the set. -/
theorem isConsumed_strip {s : Str} (h : isConsumed s = true) : isConsumed (strip s) = true := by
  rcases Bool.or_eq_true_iff.mp h with h | h
  · have htrim : ∀ s ∈ CONSUMED_EXACT, isConsumed (strip s) = true := by decide
    exact htrim s (List.contains_iff_mem.mp h)
  · obtain ⟨t, rfl⟩ := List.isSuffixOf_iff_suffix.mp h
    have hstrip : strip (t ++ ".lean".toList) = t.dropWhile isSpace ++ ".lean".toList := by
      have hdrop : (t ++ ".lean".toList).dropWhile isSpace = t.dropWhile isSpace ++ ".lean".toList := by
        rw [List.dropWhile_append]
        split
        · rename_i hnil
          rw [List.isEmpty_iff.mp hnil]
          rfl
        · rfl
      have hlast : ∀ c ∈ (t.dropWhile isSpace ++ ".lean".toList).getLast?, isSpace c = false := by
        intro c hc
        rw [List.getLast?_append_of_ne_nil _ (by decide)] at hc
        obtain rfl : 'n' = c := Option.some.inj hc
        rfl
      unfold strip stripBy
      rw [hdrop, rdropWhile_of_last hlast]
    rw [hstrip]
    exact Bool.or_eq_true_iff.mpr (Or.inr
      (List.isSuffixOf_iff_suffix.mpr (List.suffix_append _ _)))

/-- What ends in a quote is no name of the set. -/
theorem isConsumed_quote (s : Str) : isConsumed ('"' :: s ++ ['"']) = false := by
  have hexact : ∀ u ∈ CONSUMED_EXACT, u.head? ≠ some '"' := by decide
  have hsuffix : ¬".lean".toList <:+ '"' :: s ++ ['"'] := by
    intro h
    obtain ⟨t, ht⟩ := h
    have hlast := congrArg List.getLast? ht
    rw [List.getLast?_append_of_ne_nil _ (by decide), List.getLast?_concat] at hlast
    exact absurd hlast (by decide)
  rw [isConsumed, Bool.or_eq_false_iff, Bool.eq_false_iff, Bool.eq_false_iff, ne_eq, ne_eq,
    List.contains_iff_mem, List.isSuffixOf_iff_suffix]
  exact ⟨fun h => hexact _ h rfl, hsuffix⟩

/-! ## Lines of a listing -/

/-- The columns of a line are words, and none holds a tab. -/
theorem Kind.columns_word (k : Kind) :
    (k.columns.1 ≠ [] ∧ ∀ c ∈ k.columns.1, isSpace c = false) ∧
      k.columns.2 ≠ [] ∧ ∀ c ∈ k.columns.2, isSpace c = false := by
  cases k <;> exact ⟨⟨by decide, forall_chars (by decide)⟩, by decide, forall_chars (by decide)⟩

/-- The columns in front of the path. -/
def TreeEntry.columns (e : TreeEntry) : Str :=
  e.kind.columns.1 ++ ' ' :: (e.kind.columns.2 ++ ' ' :: e.oid.hex)

theorem TreeEntry.splitWs_columns (e : TreeEntry) :
    splitWs e.columns = [e.kind.columns.1, e.kind.columns.2, e.oid.hex] := by
  obtain ⟨⟨h1, hw1⟩, h2, hw2⟩ := e.kind.columns_word
  have hw3 : ∀ c ∈ e.oid.hex, isSpace c = false := fun c hc => isSpace_of_isHex (e.oid.digits c hc)
  have hspace : ∀ {r : Str}, Stops (fun c => !isSpace c) (' ' :: r) := stops_cons.mpr rfl
  have hlast : splitWs e.oid.hex = [e.oid.hex] := by
    have h := splitWs_word e.oid.ne hw3 (stops_nil _)
    rwa [List.append_nil] at h
  unfold TreeEntry.columns
  rw [splitWs_word h1 hw1 hspace, splitWs_cons_space rfl, splitWs_word h2 hw2 hspace,
    splitWs_cons_space rfl, hlast]

theorem TreeEntry.columns_noTab (e : TreeEntry) : ∀ c ∈ e.columns, c ≠ '\t' ∧ c ≠ '\n' := by
  have hword : ∀ {w : Str}, (∀ c ∈ w, isSpace c = false) → ∀ c ∈ w, c ≠ '\t' ∧ c ≠ '\n' := by
    intro w hw c hc
    constructor <;> rintro rfl <;> exact absurd (hw _ hc) (by decide)
  obtain ⟨⟨-, hw1⟩, -, hw2⟩ := e.kind.columns_word
  have hw3 : ∀ c ∈ e.oid.hex, isSpace c = false := fun c hc => isSpace_of_isHex (e.oid.digits c hc)
  unfold TreeEntry.columns
  simp only [List.forall_mem_append, List.forall_mem_cons]
  exact ⟨hword hw1, by decide, hword hw2, by decide, hword hw3⟩

section

variable [CQuote]

theorem Path.shown_of_plain {p : Path} (h : p.plain = true) : p.shown = p.text := if_pos h

/-- **A listing shows the consumed paths that are plain, and what is taken for them.** -/
theorem Path.isConsumed_shown (p : Path) : isConsumed (strip p.shown) = p.seen := by
  unfold seen
  cases h : p.plain with
  | true => rw [shown_of_plain h, Bool.true_and]
  | false =>
      have hquote : p.shown = '"' :: CQuote.body p.bytes ++ ['"'] :=
        if_neg (by rw [h]; exact Bool.false_ne_true)
      have htrim : Trimmed ('"' :: CQuote.body p.bytes ++ ['"']) := by
        refine ⟨stops_cons.mpr rfl, fun c hc => ?_⟩
        rw [List.getLast?_concat] at hc
        obtain rfl : '"' = c := Option.some.inj hc
        rfl
      rw [hquote, strip_of_trimmed htrim, isConsumed_quote, Bool.false_and]

/-- The characters of a shown path are printable. -/
theorem Path.shown_printable (p : Path) : ∀ c ∈ p.shown, 0x20 ≤ c.toNat ∧ c.toNat ≤ 0x7e := by
  intro c hc
  cases h : p.plain with
  | true =>
      rw [shown_of_plain h] at hc
      exact text_printable h c hc
  | false =>
      have hquote : p.shown = '"' :: CQuote.body p.bytes ++ ['"'] :=
        if_neg (by rw [h]; exact Bool.false_ne_true)
      rw [hquote] at hc
      rcases List.mem_append.mp hc with hc | hc
      · rcases List.mem_cons.mp hc with rfl | hc
        · decide
        · exact CQuote.printable _ c hc
      · rw [List.mem_singleton.mp hc]
        decide

theorem TreeEntry.line_eq (e : TreeEntry) : e.line = e.columns ++ '\t' :: e.path.shown := by
  simp [TreeEntry.line, TreeEntry.columns]

theorem TreeEntry.line_noNewline (e : TreeEntry) : '\n' ∉ e.line := by
  rw [e.line_eq]
  intro h
  rcases List.mem_append.mp h with h | h
  · exact (e.columns_noTab _ h).2 rfl
  · rcases List.mem_cons.mp h with h | h
    · exact absurd h (by decide)
    · exact absurd (e.path.shown_printable _ h).1 (by decide)

/-- **What is collected from a line.** -/
theorem digestLine_line (e : TreeEntry) : digestLine e.line =
    .ok (if e.path.seen then some (strip e.path.shown, e.oid.hex) else none) := by
  have hcols : ∀ c ∈ e.columns, (decide (c ≠ '\t')) = true := by
    intro c hc
    rw [decide_eq_true_eq]
    exact (e.columns_noTab c hc).1
  have hstop : Stops (fun c => decide (c ≠ '\t')) ('\t' :: e.path.shown) :=
    stops_cons.mpr (by decide)
  obtain ⟨htake, hdrop⟩ := takeWhile_run hcols hstop
  have hne : strip e.line ≠ [] := by
    intro hnil
    obtain ⟨a, b, hline, ha, hb⟩ := stripBy_parts (p := isSpace) e.line
    rw [show stripBy isSpace e.line = [] from hnil, List.append_nil] at hline
    obtain ⟨⟨h1, hw1⟩, -⟩ := e.kind.columns_word
    obtain ⟨c, w, hcw⟩ := List.exists_cons_of_ne_nil h1
    have hmem : c ∈ a ++ b := by
      rw [← hline, e.line_eq, TreeEntry.columns, hcw]
      exact List.mem_cons_self
    have hspace : isSpace c = true := by
      rcases List.mem_append.mp hmem with h | h
      · exact ha c h
      · exact hb c h
    rw [hw1 c (hcw ▸ List.mem_cons_self)] at hspace
    cases hspace
  unfold digestLine
  rw [if_neg hne, e.line_eq, hdrop, htake, e.splitWs_columns]
  dsimp only
  rw [e.path.isConsumed_shown]

/-- **What is collected from the listing of a tree**: the files it shows. -/
theorem entriesOf_lsTree (t : GitTree) : entriesOf (lsTree t) = .ok (t.part Path.seen) := by
  have htext : lsTree t = frame '\n' (t.entries.map TreeEntry.line) := by
    rw [lsTree, frame, List.flatMap_map]
  have hlines : ∀ l ∈ t.entries.map TreeEntry.line, '\n' ∉ l := by
    intro l hl
    obtain ⟨e, -, rfl⟩ := List.mem_map.mp hl
    exact e.line_noNewline
  have hmap : ∀ es : List TreeEntry, (es.map TreeEntry.line ++ [[]]).mapM digestLine =
      .ok (es.map (fun e => if e.path.seen then some (strip e.path.shown, e.oid.hex) else none) ++
        [none]) := by
    intro es
    induction es with
    | nil => rfl
    | cons e es ih =>
        rw [List.map_cons, List.cons_append, List.mapM_cons, digestLine_line, ok_bind, ih]
        rfl
  have hreduce : ∀ es : List TreeEntry,
      (es.map (fun e : TreeEntry => if e.path.seen then some (strip e.path.shown, e.oid.hex) else none) ++
        [none]).reduceOption =
      (es.filter fun e => e.path.seen).map fun e => (strip e.path.text, e.oid.hex) := by
    intro es
    induction es with
    | nil => rfl
    | cons e es ih =>
        rw [List.map_cons, List.cons_append]
        cases hseen : e.path.seen with
        | false =>
            rw [if_neg Bool.false_ne_true, List.reduceOption_cons_of_none, ih,
              List.filter_cons_of_neg (by rw [hseen]; exact Bool.false_ne_true)]
        | true =>
            have hplain : e.path.plain = true := (Bool.and_eq_true_iff.mp hseen).1
            have hfilter : (e :: es).filter (fun e => e.path.seen) =
                e :: es.filter fun e => e.path.seen := List.filter_cons_of_pos hseen
            rw [if_pos rfl, List.reduceOption_cons_of_some, ih, hfilter, List.map_cons,
              Path.shown_of_plain hplain]
  unfold entriesOf
  rw [htext, splitOn_lines hlines, hmap, map_ok, hreduce]
  rfl

end

/-! ## The hashed string -/

/-- **Two collections have one hashed string exactly if they hold the same entries**, when no
field has a NUL. -/
theorem hashed_inj_iff {es es' : List (Str × Str)} (h : ∀ x ∈ es, '\x00' ∉ x.1 ∧ '\x00' ∉ x.2)
    (h' : ∀ x ∈ es', '\x00' ∉ x.1 ∧ '\x00' ∉ x.2) : hashed es = hashed es' ↔ es.Perm es' := by
  have hframe : ∀ l : List (Str × Str), (l.flatMap fun x => x.1 ++ ['\x00'] ++ x.2 ++ ['\x00']) =
      frame '\x00' (fields l) := by
    intro l
    induction l with
    | nil => rfl
    | cons x l ih =>
        rw [List.flatMap_cons, ih]
        simp [frame, fields]
  have hnul : ∀ {l : List (Str × Str)}, (∀ x ∈ l, '\x00' ∉ x.1 ∧ '\x00' ∉ x.2) →
      ∀ a ∈ fields (sortEntries l), '\x00' ∉ a := by
    intro l hl a ha
    obtain ⟨x, hx, hax⟩ := List.mem_flatMap.mp ha
    have hxl : x ∈ l := by
      obtain ⟨y, hy, rfl⟩ := List.mem_map.mp hx
      obtain ⟨z, hz, rfl⟩ := List.mem_map.mp ((List.mem_insertionSort _).mp hy)
      exact hz
    simp only [List.mem_cons, List.not_mem_nil, or_false] at hax
    rcases hax with rfl | rfl
    · exact (hl x hxl).1
    · exact (hl x hxl).2
  have hsort : sortEntries es = sortEntries es' ↔ es.Perm es' := by
    unfold sortEntries
    rw [(List.map_injective_iff.mpr ofLex.injective).eq_iff, insertionSort_eq_iff_perm,
      List.map_perm_map_iff toLex.injective]
  rw [← hsort]
  unfold hashed
  constructor
  · intro heq
    rw [String.toUTF8_eq_toByteArray, String.toUTF8_eq_toByteArray, String.toByteArray_inj] at heq
    have htext := String.ofList_injective heq
    rw [hframe, hframe] at htext
    exact fields_inj (frame_inj (hnul h) (hnul h') htext)
  · intro heq
    rw [heq]

theorem GitTree.part_noNul (t : GitTree) :
    ∀ x ∈ t.part Path.seen, '\x00' ∉ x.1 ∧ '\x00' ∉ x.2 := by
  intro x hx
  obtain ⟨e, he, rfl⟩ := List.mem_map.mp hx
  obtain ⟨-, hseen⟩ := List.mem_filter.mp he
  have hplain : e.path.plain = true := (Bool.and_eq_true_iff.mp hseen).1
  constructor
  · intro hmem
    obtain ⟨a, b, htext, -, -⟩ := stripBy_parts (p := isSpace) e.path.text
    have hin : '\x00' ∈ e.path.text := by
      rw [htext]
      exact List.mem_append_left _ (List.mem_append_right _ hmem)
    exact absurd (Path.text_printable hplain _ hin).1 (by decide)
  · intro hmem
    exact absurd (e.oid.digits _ hmem) (by decide)

/-- The bytes that `digest` hashes for a tree. -/
def GitTree.hashed (t : GitTree) : ByteArray := Skip.hashed (t.part Path.seen)

/-- **Two trees have one hashed string exactly if they show the same entries.** -/
theorem hashed_eq_iff (t₁ t₂ : GitTree) : t₁.hashed = t₂.hashed ↔ SameSeen t₁ t₂ :=
  hashed_inj_iff t₁.part_noNul t₂.part_noNul

/-! ## Parts of a tree -/

/-- Two files at one path are one. -/
theorem GitTree.eq_of_path (t : GitTree) {e e' : TreeEntry} (he : e ∈ t.entries)
    (he' : e' ∈ t.entries) (h : e.path = e'.path) : e = e' :=
  List.inj_on_of_nodup_map t.nodup he he' h

theorem GitTree.blob?_eq_some_iff (t : GitTree) {p : Path} {o : Oid} :
    t.blob? p = some o ↔ ∃ e ∈ t.entries, e.path = p ∧ e.oid = o := by
  unfold GitTree.blob?
  constructor
  · intro h
    obtain ⟨e, he, rfl⟩ := Option.map_eq_some_iff.mp h
    exact ⟨e, List.mem_of_find?_eq_some he, by simpa using List.find?_some he, rfl⟩
  · rintro ⟨e, he, rfl, rfl⟩
    cases hfind : t.entries.find? fun e' => e'.path = e.path with
    | none =>
        exact absurd (decide_eq_true rfl) (List.find?_eq_none.mp hfind e he)
    | some e' =>
        have hpath : e'.path = e.path := by simpa using List.find?_some hfind
        rw [t.eq_of_path (List.mem_of_find?_eq_some hfind) he hpath]
        rfl

/-- Trees that agree at the paths of a part have the same part. -/
theorem part_perm {t₁ t₂ : GitTree} {q : Path → Bool}
    (h : ∀ p, q p = true → t₁.blob? p = t₂.blob? p) : (t₁.part q).Perm (t₂.part q) := by
  -- the files of a part, without their kinds
  let files (t : GitTree) : List (Path × Oid) :=
    (t.entries.filter fun e => q e.path).map fun e => (e.path, e.oid)
  have hmem : ∀ (t : GitTree) p o, (p, o) ∈ files t ↔ q p = true ∧ t.blob? p = some o := by
    intro t p o
    rw [t.blob?_eq_some_iff]
    constructor
    · intro hpo
      obtain ⟨e, he, heq⟩ := List.mem_map.mp hpo
      obtain ⟨hin, hq⟩ := List.mem_filter.mp he
      obtain ⟨rfl, rfl⟩ := Prod.mk.inj heq
      exact ⟨hq, e, hin, rfl, rfl⟩
    · rintro ⟨hq, e, hin, rfl, rfl⟩
      exact List.mem_map.mpr ⟨e, List.mem_filter.mpr ⟨hin, hq⟩, rfl⟩
  have hnodup : ∀ t, (files t).Nodup := by
    intro t
    have hpaths : ((t.entries.filter fun e => q e.path).map TreeEntry.path).Nodup :=
      t.nodup.sublist (List.filter_sublist.map _)
    apply List.Nodup.of_map Prod.fst
    rw [List.map_map]
    exact hpaths
  have hperm : (files t₁).Perm (files t₂) := by
    rw [List.perm_ext_iff_of_nodup (hnodup t₁) (hnodup t₂)]
    rintro ⟨p, o⟩
    rw [hmem, hmem]
    exact and_congr_right fun hq => by rw [h p hq]
  have hpart : ∀ t, t.part q = (files t).map fun x => (strip x.1.text, x.2.hex) := by
    intro t
    rw [GitTree.part, List.map_map]
    rfl
  rw [hpart, hpart]
  exact hperm.map _

/-- A part is put together from two that exclude each other. -/
theorem part_append {q q₁ q₂ : Path → Bool} (h : ∀ p, q p = (q₁ p || q₂ p))
    (hdisj : ∀ p, q₁ p = true → q₂ p = false) (t : GitTree) :
    (t.part q).Perm (t.part q₁ ++ t.part q₂) := by
  unfold GitTree.part
  rw [← List.map_append]
  apply List.Perm.map
  have hsplit := (List.filter_append_perm (fun e : TreeEntry => q₁ e.path)
    (t.entries.filter fun e => q e.path)).symm
  rw [List.filter_filter, List.filter_filter] at hsplit
  convert hsplit using 2
  · congr 1
    funext e
    rw [h]
    cases q₁ e.path <;> simp
  · congr 1
    funext e
    rw [h]
    cases h₁ : q₁ e.path <;> simp
    exact hdisj e.path h₁

/-- Trees that have the same clean part agree at clean paths. -/
theorem blob?_eq_of_clean {t₁ t₂ : GitTree} (h : (t₁.part Path.clean).Perm (t₂.part Path.clean))
    {p : Path} (hp : p.clean = true) : t₁.blob? p = t₂.blob? p := by
  have hclean : ∀ {p : Path}, p.clean = true → p.plain = true ∧ strip p.text = p.text := by
    intro p hp
    obtain ⟨hp, htrim⟩ := Bool.and_eq_true_iff.mp hp
    exact ⟨(Bool.and_eq_true_iff.mp hp).2, of_decide_eq_true htrim⟩
  have hmem : ∀ (t : GitTree) o, (p.text, o) ∈ t.part Path.clean ↔
      ∃ b, b.hex = o ∧ t.blob? p = some b := by
    intro t o
    constructor
    · intro hin
      obtain ⟨e, he, heq⟩ := List.mem_map.mp hin
      obtain ⟨hin, hq⟩ := List.mem_filter.mp he
      obtain ⟨htext, hoid⟩ := Prod.mk.inj heq
      rw [(hclean hq).2] at htext
      have hpath : e.path = p := Path.text_inj (hclean hq).1 (hclean hp).1 htext
      exact ⟨e.oid, hoid, t.blob?_eq_some_iff.mpr ⟨e, hin, hpath, rfl⟩⟩
    · rintro ⟨b, rfl, hb⟩
      obtain ⟨e, hin, rfl, rfl⟩ := t.blob?_eq_some_iff.mp hb
      refine List.mem_map.mpr ⟨e, List.mem_filter.mpr ⟨hin, hp⟩, ?_⟩
      rw [(hclean hp).2]
  have hoid : ∀ b b' : Oid, b.hex = b'.hex → b = b' := by
    rintro ⟨b, _, _⟩ ⟨b', _, _⟩ rfl
    rfl
  apply Option.ext
  intro b
  have hiff : ((p.text, b.hex) ∈ t₁.part Path.clean) ↔ (p.text, b.hex) ∈ t₂.part Path.clean :=
    h.mem_iff
  rw [hmem, hmem] at hiff
  constructor
  · intro hb
    obtain ⟨b', hhex, hb'⟩ := hiff.mp ⟨b, rfl, hb⟩
    rw [hoid b' b hhex] at hb'
    exact hb'
  · intro hb
    obtain ⟨b', hhex, hb'⟩ := hiff.mpr ⟨b, rfl, hb⟩
    rw [hoid b' b hhex] at hb'
    exact hb'

/-- What a tree shows: its clean part, its padded part and its strays. -/
theorem part_seen (t : GitTree) : (t.part Path.seen).Perm
    ((t.part Path.clean ++ t.part Path.padded) ++ t.part Path.stray) := by
  have hseen : ∀ p : Path, p.seen = ((p.consumed && p.plain) || p.stray) := by
    intro p
    unfold Path.seen Path.stray
    cases hplain : p.plain with
    | false => simp
    | true =>
        cases hcons : p.consumed with
        | false => simp
        | true =>
            have hname : isConsumed p.text = true := by rw [← Path.consumed_eq hplain, hcons]
            simp [isConsumed_strip hname]
  have hinner : ∀ p : Path, (p.consumed && p.plain) = (p.clean || p.padded) := by
    intro p
    unfold Path.clean Path.padded
    by_cases h : strip p.text = p.text <;> simp [h]
  have hout : (t.part Path.seen).Perm
      ((t.part fun p => p.consumed && p.plain) ++ t.part Path.stray) := by
    refine part_append hseen (fun p hp => ?_) t
    rw [Path.stray, (Bool.and_eq_true_iff.mp hp).1]
    rfl
  refine hout.trans (List.Perm.append_right _ (part_append hinner (fun p hp => ?_) t))
  have htrim : strip p.text = p.text := of_decide_eq_true (Bool.and_eq_true_iff.mp hp).2
  unfold Path.padded
  simp [htrim]

/-- **Among trees that show the same entries, those that agree on the misleading files agree on
the consumed set, and no others.** -/
theorem sameConsumed_iff {t₁ t₂ : GitTree} (h : SameSeen t₁ t₂) :
    SameConsumed t₁ t₂ ↔ MaskedAgree t₁ t₂ := by
  have hshown : ((t₁.part Path.clean ++ t₁.part Path.padded) ++ t₁.part Path.stray).Perm
      ((t₂.part Path.clean ++ t₂.part Path.padded) ++ t₂.part Path.stray) :=
    (part_seen t₁).symm.trans (h.trans (part_seen t₂))
  have hcons : ∀ p : Path, p.clean = true ∨ p.padded = true ∨ p.quoted = true →
      p.consumed = true := by
    intro p hp
    rcases hp with hp | hp | hp
    · exact (Bool.and_eq_true_iff.mp (Bool.and_eq_true_iff.mp hp).1).1
    · exact (Bool.and_eq_true_iff.mp (Bool.and_eq_true_iff.mp hp).1).1
    · exact (Bool.and_eq_true_iff.mp hp).1
  constructor
  · intro hsame
    have hclean : (t₁.part Path.clean).Perm (t₂.part Path.clean) :=
      part_perm fun p hp => hsame p (hcons p (Or.inl hp))
    have hpadded : (t₁.part Path.padded).Perm (t₂.part Path.padded) :=
      part_perm fun p hp => hsame p (hcons p (Or.inr (Or.inl hp)))
    refine ⟨fun p hp => ?_, ?_⟩
    · rcases hp with hp | hp
      · exact hsame p (hcons p (Or.inr (Or.inr hp)))
      · exact hsame p (hcons p (Or.inr (Or.inl hp)))
    · have hfront := hclean.append hpadded
      exact (List.perm_append_left_iff _).mp (hshown.trans (hfront.symm.append_right _))
  · intro hagree p hp
    have hpadded : (t₁.part Path.padded).Perm (t₂.part Path.padded) :=
      part_perm fun p hp => hagree.named p (Or.inr hp)
    have hfront := (List.perm_append_right_iff _).mp
      (hshown.trans (hagree.stray.symm.append_left _))
    have hclean := (List.perm_append_right_iff _).mp (hfront.trans (hpadded.symm.append_left _))
    -- a consumed path is quoted, padded or clean
    cases hplain : p.plain with
    | false =>
        exact hagree.named p (Or.inl (by rw [Path.quoted, hp, hplain]; rfl))
    | true =>
        by_cases htrim : strip p.text = p.text
        · exact blob?_eq_of_clean hclean (by simp [Path.clean, hp, hplain, htrim])
        · exact hagree.named p (Or.inr (by simp [Path.padded, hp, hplain, htrim]))

/-! ## The decision -/

/-- How a skip is decided: the listings at the ref and at the inherited commit have one digest. -/
theorem decide_skip {w : World} {ref branch gsha : Str} (hskip : (w.decide ref branch).skip = true)
    (hinherits : (w.decide ref branch).inherits = some gsha) :
    ∃ out d n gout m, w.lsTree ref = .ok out ∧ digest w.sha256 out = .ok (d, n) ∧
      w.lsTree gsha = .ok gout ∧ digest w.sha256 gout = .ok (d, m) := by
  generalize hv : w.decide ref branch = v at hskip hinherits
  unfold World.decide at hv
  split at hv
  · subst hv
    cases hskip
  split at hv
  · subst hv
    cases hskip
  rename_i head d n hhead
  obtain ⟨rev, -, hhead⟩ := bind_eq_ok.mp hhead
  obtain ⟨out, hout, hhead⟩ := bind_eq_ok.mp hhead
  obtain ⟨x, hd, hx⟩ := bind_eq_ok.mp hhead
  obtain rfl : x = (d, n) := (Prod.mk.inj (Except.ok.inj hx)).2
  split at hv
  · subst hv
    cases hskip
  rename_i g run _
  split at hv
  · subst hv
    cases hskip
  split at hv
  · subst hv
    cases hskip
  rename_i gd m hgd
  obtain ⟨gout, hgout, hgd⟩ := bind_eq_ok.mp hgd
  split at hv
  · rename_i heq
    subst hv heq
    obtain rfl : g = gsha := Option.some.inj hinherits
    exact ⟨out, _, n, gout, m, hout, hd, hgout, hgd⟩
  · subst hv
    cases hskip

section

variable [CQuote]

/-- The digest of a tree's listing. -/
theorem digest_lsTree (sha256 : ByteArray → Str) (t : GitTree) :
    digest sha256 (lsTree t) = .ok ((sha256 t.hashed).take 16, (t.part Path.seen).length) := by
  unfold digest
  rw [entriesOf_lsTree, ok_bind]
  rfl

/-- **A skip has matched the digest of the tree it inherits from.** -/
theorem skip_digest {w : World} {ref branch gsha : Str} {t₁ t₂ : GitTree}
    (h₁ : w.lsTree ref = .ok (lsTree t₁)) (hskip : (w.decide ref branch).skip = true)
    (hinherits : (w.decide ref branch).inherits = some gsha)
    (h₂ : w.lsTree gsha = .ok (lsTree t₂)) :
    (w.sha256 t₁.hashed).take 16 = (w.sha256 t₂.hashed).take 16 := by
  obtain ⟨out, d, n, gout, m, hout, hd, hgout, hgd⟩ := decide_skip hskip hinherits
  rw [h₁] at hout
  rw [h₂] at hgout
  rw [← Except.ok.inj hout, digest_lsTree] at hd
  rw [← Except.ok.inj hgout, digest_lsTree] at hgd
  have h₁ := (Prod.mk.inj (Except.ok.inj hd)).1
  have h₂ := (Prod.mk.inj (Except.ok.inj hgd)).1
  rw [h₁, h₂]

/-- **What the digest covers.** Trees with one hashed string have the same map on the declared set
exactly if, showing the same entries, they agree on the misleading files; and where the hash
function does not confuse the two strings, a skip inherits from a tree with the same map exactly
if they agree. -/
theorem digest_covers_iff :
    (∀ t₁ t₂ : GitTree, entriesOf (lsTree t₁) = .ok (t₁.part Path.seen) ∧
      ((t₁.hashed = t₂.hashed → SameConsumed t₁ t₂) ↔ (SameSeen t₁ t₂ → MaskedAgree t₁ t₂))) ∧
    ∀ (w : World) (ref branch gsha : Str) (t₁ t₂ : GitTree),
      w.lsTree ref = .ok (lsTree t₁) → (w.decide ref branch).skip = true →
      (w.decide ref branch).inherits = some gsha → w.lsTree gsha = .ok (lsTree t₂) →
      ((w.sha256 t₁.hashed).take 16 = (w.sha256 t₂.hashed).take 16 → t₁.hashed = t₂.hashed) →
      (SameConsumed t₁ t₂ ↔ MaskedAgree t₁ t₂) := by
  refine ⟨fun t₁ t₂ => ⟨entriesOf_lsTree t₁, ?_⟩, ?_⟩
  · rw [hashed_eq_iff]
    exact forall_congr' fun h => sameConsumed_iff h
  · intro w ref branch gsha t₁ t₂ h₁ hskip hinherits h₂ hsha
    exact sameConsumed_iff ((hashed_eq_iff t₁ t₂).mp (hsha (skip_digest h₁ hskip hinherits h₂)))

end

/-! ## Trees the digest does not tell apart -/

/-- The blob of an empty file. -/
def emptyBlob : Oid where
  hex := "e69de29bb2d1d6434b8b29ae775ad8c2e48c5391".toList
  ne := by decide
  digits := forall_chars (by decide)

/-- Files at some paths, all of them empty. -/
def treeOf (paths : List Path) (h : paths.Nodup) : GitTree where
  entries := paths.map fun p => ⟨.file, p, emptyBlob⟩
  nodup := by
    rw [List.map_map]
    exact (List.map_id paths).symm ▸ h

/-- `a.lean`. -/
def leanPath : Path := ⟨asciiBytes "a.lean".toList, by decide, by decide⟩

/-- `b.md`. -/
def docPath : Path := ⟨asciiBytes "b.md".toList, by decide, by decide⟩

/-- `é.lean`, in UTF-8. -/
def quotedPath : Path := ⟨0xc3 :: 0xa9 :: asciiBytes ".lean".toList, by decide, by decide⟩

/-- `a.lean` with a space behind it. -/
def spacePath : Path := ⟨asciiBytes "a.lean ".toList, by decide, by decide⟩

/-- A run in which the head has a document more than the green commit. -/
def docWorld : World where
  revParse _ := .ok "1111111111111111111111111111111111111111\n".toList
  lsTree ref := .ok (if ref = "HEAD".toList then
    @lsTree gitQuote (treeOf [leanPath, docPath] (by decide))
    else @lsTree gitQuote (treeOf [leanPath] (by decide)))
  haveCommit _ := true
  runs _ := some [⟨7, "2222222222222222222222222222222222222222".toList, "completed".toList⟩]
  jobs _ := some [⟨"selftest (1)".toList, "success".toList⟩]
  sha256 _ := "b2a5a6c7c25e457c76c0353b99876f2fea37ee95e4855e9fb2b61f141ac41c02".toList

/-- The document does not move the digest, and the skip inherits from a tree with the same map. -/
theorem digest_covers_doc : (docWorld.decide "HEAD".toList "master".toList).skip = true ∧
    (SameConsumed (treeOf [leanPath, docPath] (by decide)) (treeOf [leanPath] (by decide)) ↔
      MaskedAgree (treeOf [leanPath, docPath] (by decide)) (treeOf [leanPath] (by decide))) := by
  have hskip : (docWorld.decide "HEAD".toList "master".toList).skip = true := by decide +kernel
  refine ⟨hskip, ?_⟩
  exact (@digest_covers_iff gitQuote).2 docWorld "HEAD".toList "master".toList
    "2222222222222222222222222222222222222222".toList _ _ rfl hskip (by decide +kernel) rfl
    fun _ => by decide +kernel

/-- **Two pairs the digest does not tell apart.** A `.lean` file whose name git quotes is not seen;
a file outside the set is taken for `a.lean` once the space behind its name is stripped. -/
theorem digest_misses :
    (entriesOf (@lsTree gitQuote (treeOf [quotedPath] (by decide))) =
        entriesOf (@lsTree gitQuote (treeOf [] (by decide))) ∧
      (treeOf [quotedPath] (by decide)).hashed = (treeOf [] (by decide)).hashed ∧
      ¬SameConsumed (treeOf [quotedPath] (by decide)) (treeOf [] (by decide))) ∧
    (entriesOf (@lsTree gitQuote (treeOf [spacePath] (by decide))) =
        entriesOf (@lsTree gitQuote (treeOf [leanPath] (by decide))) ∧
      (treeOf [spacePath] (by decide)).hashed = (treeOf [leanPath] (by decide)).hashed ∧
      ¬SameConsumed (treeOf [spacePath] (by decide)) (treeOf [leanPath] (by decide))) := by
  refine ⟨⟨by decide +kernel, by decide +kernel, ?_⟩, by decide +kernel, by decide +kernel, ?_⟩
  · intro h
    exact absurd (h quotedPath (by decide)) (by decide +kernel)
  · intro h
    exact absurd (h leanPath (by decide)) (by decide +kernel)

end X86Scripts.Skip
