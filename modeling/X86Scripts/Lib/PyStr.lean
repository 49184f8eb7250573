import X86Scripts.Lib.Digits

/-!
# Python strings

The `str` methods and the `int()` constructor, on lists of characters and as documented.

* `UnicodeDB`: what the interpreter's Unicode tables say about a character outside ASCII. Nothing
  here depends on what they say.
* `isSpace`, `isWord`, `strip`, `split1` (`s.split(None, 1)`), `splitWs` (`s.split()`),
  `splitlines`, `hasSub` (`sub in s`), `pyRepr` (`f"{s!r}"`).
* `parseInt`: `int(s, base)`, `none` standing for `ValueError`. `parseInt_isSome_iff` states which
  texts it reads: `IsIntLiteral`.
* `Trimmed`, `strip_pad`, `split1_cons`, `splitlines_lines`: what the methods do to a text put
  together from known parts.
-/

namespace X86Scripts.Py

open X86Scripts.Regex (Stops stops_cons stops_nil)
open X86Scripts.Digits

/-- The interpreter's Unicode tables for characters outside ASCII: `str.isalnum`, the decimal
digit value, `str.isprintable`. -/
class UnicodeDB where
  /-- `c.isalnum()`. -/
  alnum : Char → Bool
  /-- The value of a character of category `Nd`. -/
  decimal : Char → Option (Fin 10)
  /-- `c.isprintable()`. -/
  printable : Char → Bool

/-- Tables that know no character outside ASCII. -/
@[reducible] def UnicodeDB.ascii : UnicodeDB := ⟨fun _ => false, fun _ => none, fun _ => false⟩

/-! ## Character classes -/

/-- `c.isspace()`, which is also the class `\s`. -/
def isSpace (c : Char) : Bool :=
  let n := c.toNat
  (9 ≤ n && n ≤ 13) || (0x1c ≤ n && n ≤ 0x20) || n == 0x85 || n == 0xa0 || n == 0x1680 ||
    (0x2000 ≤ n && n ≤ 0x200a) || n == 0x2028 || n == 0x2029 || n == 0x202f || n == 0x205f ||
    n == 0x3000

/-- The class `\w`: a letter or digit of any script, or an underscore. -/
def isWord [UnicodeDB] (c : Char) : Bool :=
  if c.toNat < 128 then c.isAlphanum || c == '_' else UnicodeDB.alnum c

/-- The class `.`: anything but a newline. -/
def isDot (c : Char) : Bool := c != '\n'

/-- The characters at which `str.splitlines` ends a line. -/
def isLineBreak (c : Char) : Bool :=
  let n := c.toNat
  (0xa ≤ n && n ≤ 0xd) || (0x1c ≤ n && n ≤ 0x1e) || n == 0x85 || n == 0x2028 || n == 0x2029

/-! ## Stripping and splitting -/

/-- `s.lstrip()`. -/
def lstrip (s : Str) : Str := s.dropWhile isSpace

/-- `s` without the `p`-characters at its two ends. -/
def stripBy (p : Char → Bool) (s : Str) : Str := (s.dropWhile p).rdropWhile p

/-- `s.strip()`. -/
def strip (s : Str) : Str := stripBy isSpace s

/-- `s.split(None, 1)`: the first word and, if anything is left, the rest from its first
non-space character on (its trailing whitespace stays). -/
def split1 (s : Str) : List Str :=
  match lstrip s with
  | [] => []
  | c :: t =>
    let w := (c :: t).takeWhile fun d => !isSpace d
    match lstrip ((c :: t).dropWhile fun d => !isSpace d) with
    | [] => [w]
    | d :: r => [w, d :: r]

/-- Put a non-space character in front of the words of what follows it, `d?` being the next
character: a word of its own before whitespace or the end, else a part of the first word. -/
def glueWord (c : Char) (d? : Option Char) (ws : List Str) : List Str :=
  match d?, ws with
  | some d, w :: ws => if isSpace d then [c] :: w :: ws else (c :: w) :: ws
  | _, _ => [[c]]

/-- `s.split()`: the maximal runs of non-space characters. -/
def splitWs : Str → List Str
  | [] => []
  | c :: s => if isSpace c then splitWs s else glueWord c s.head? (splitWs s)

/-- The lines of `s`, `cur` being the characters of the current one read so far. -/
def splitlinesGo : Str → Str → List Str
  | [], [] => []
  | cur, [] => [cur]
  | cur, '\r' :: '\n' :: s => cur :: splitlinesGo [] s
  | cur, c :: s => if isLineBreak c then cur :: splitlinesGo [] s else splitlinesGo (cur ++ [c]) s

/-- `s.splitlines()`. -/
def splitlines (s : Str) : List Str := splitlinesGo [] s

/-- `sub in s`. -/
def hasSub (sub s : Str) : Bool := s.tails.any fun t => sub.isPrefixOf t

/-- One character of `repr`, inside quotes `q`. -/
def reprChar [UnicodeDB] (q c : Char) : Str :=
  let n := c.toNat
  if c == q || c == '\\' then ['\\', c]
  else if c == '\t' then "\\t".toList
  else if c == '\n' then "\\n".toList
  else if c == '\r' then "\\r".toList
  else if n < 0x20 || n == 0x7f then "\\x".toList ++ hexPad 2 n
  else if n < 0x7f || UnicodeDB.printable c then [c]
  else if n < 0x100 then "\\x".toList ++ hexPad 2 n
  else if n < 0x10000 then "\\u".toList ++ hexPad 4 n
  else "\\U".toList ++ hexPad 8 n

/-- `repr(s)`: single quotes, unless the text has one and no double quote. -/
def pyRepr [UnicodeDB] (s : Str) : Str :=
  let q := if s.contains '\'' && !s.contains '"' then '"' else '\''
  q :: s.flatMap (reprChar q) ++ [q]

/-! ## `int()` -/

/-- The whitespace `int()` skips around a literal. Inside ASCII this is C's `isspace`, which
does not know the separators `\x1c` to `\x1f`. -/
def intSpace (c : Char) : Bool :=
  if c.toNat < 127 then (9 ≤ c.toNat && c.toNat ≤ 13) || c == ' ' else isSpace c

/-- The value of a digit of an `int()` literal: decimal digits of any script count. -/
def intDigit [UnicodeDB] (base : Nat) (c : Char) : Option Nat :=
  (if c.toNat < 127 then digitVal c
    else if isSpace c then none
    else (UnicodeDB.decimal c).map Fin.val).filter (· < base)

/-- `sys.int_info.default_max_str_digits`: the longest decimal literal `int()` reads. Bases that
are powers of two have no limit. -/
def maxStrDigits : Nat := 4300

/-- Drop one leading underscore. -/
def dropUnderscore : Str → Str
  | '_' :: r => r
  | r => r

/-- The digits after a `0x` prefix, where one underscore may stand in between. -/
def dropHexPrefix : Str → Str
  | '0' :: 'x' :: r => dropUnderscore r
  | '0' :: 'X' :: r => dropUnderscore r
  | s => s

/-- The sign of a literal and what follows it. -/
def intSign : Str → Bool × Str
  | '+' :: r => (false, r)
  | '-' :: r => (true, r)
  | s => (false, s)

/-- The digit values of one group between underscores, which must not be empty. -/
def digitGroup [UnicodeDB] (base : Nat) (g : Str) : Option (List Nat) :=
  if g = [] then none else g.mapM (intDigit base)

/-- What follows the prefix, which only base 16 has. -/
def litBody (base : Nat) (t : Str) : Str := if base = 16 then dropHexPrefix t else t

/-- `int(s, base)`, for base 10 or 16; `none` is `ValueError`. -/
def parseInt [UnicodeDB] (base : Nat) (s : Str) : Option Int :=
  let t := intSign (stripBy intSpace s)
  match ((litBody base t.2).splitOn '_').mapM (digitGroup base) with
  | none => none
  | some groups =>
    let ds := groups.flatten
    if base = 10 ∧ maxStrDigits < ds.length then none
    else some (if t.1 then -(ofDigits base ds : Int) else ofDigits base ds)

/-! ## What stripping does -/

/-- No `p`-character at either end. -/
def TrimmedBy (p : Char → Bool) (s : Str) : Prop := Stops p s ∧ ∀ c ∈ s.getLast?, p c = false

/-- No whitespace at either end. -/
def Trimmed (s : Str) : Prop := TrimmedBy isSpace s

section strip

variable {p : Char → Bool}

theorem dropWhile_of_stops {s : Str} (h : Stops p s) : s.dropWhile p = s := by
  cases s with
  | nil => rfl
  | cons c s => rw [stops_cons] at h; simp [h]

theorem stops_dropWhile (s : Str) : Stops p (s.dropWhile p) := by
  induction s with
  | nil => simp
  | cons c s ih =>
      by_cases hc : p c = true
      · simpa [hc] using ih
      · simp [hc]

theorem rdropWhile_pad {q : Str} (hq : ∀ c ∈ q, p c = true) (s : Str) :
    (s ++ q).rdropWhile p = s.rdropWhile p := by
  unfold List.rdropWhile
  rw [List.reverse_append, List.dropWhile_append_of_pos]
  simpa using hq

theorem rdropWhile_of_last {s : Str} (h : ∀ c ∈ s.getLast?, p c = false) :
    s.rdropWhile p = s := by
  refine List.rdropWhile_eq_self_iff.mpr fun hs => ?_
  rw [h _ (List.getLast_mem_getLast? hs)]
  decide

theorem last_rdropWhile (s : Str) : ∀ c ∈ (s.rdropWhile p).getLast?, p c = false := by
  intro c hc
  by_cases hs : s.rdropWhile p = []
  · rw [hs] at hc; cases hc
  · rw [List.getLast?_eq_some_getLast hs, Option.mem_some_iff] at hc
    subst hc
    have hlast := List.rdropWhile_last_not p s hs
    rwa [Bool.not_eq_true] at hlast

theorem stripBy_of_trimmed {s : Str} (h : TrimmedBy p s) : stripBy p s = s := by
  rw [stripBy, dropWhile_of_stops h.1, rdropWhile_of_last h.2]

theorem trimmed_stripBy (s : Str) : TrimmedBy p (stripBy p s) := by
  refine ⟨?_, last_rdropWhile _⟩
  obtain ⟨t, ht⟩ : (s.dropWhile p).rdropWhile p <+: s.dropWhile p := List.rdropWhile_prefix p _
  have hs : Stops p (s.dropWhile p) := stops_dropWhile s
  unfold stripBy
  rw [← ht] at hs
  cases h : (s.dropWhile p).rdropWhile p with
  | nil => simp
  | cons c r => rw [h] at hs; simpa using hs

/-- Stripping a trimmed text with `p`-characters around it. -/
theorem stripBy_pad {a b s : Str} (hs : TrimmedBy p s) (ha : ∀ c ∈ a, p c = true)
    (hb : ∀ c ∈ b, p c = true) : stripBy p (a ++ s ++ b) = s := by
  rw [stripBy, List.append_assoc, List.dropWhile_append_of_pos ha]
  cases s with
  | nil =>
      have hnil : b.dropWhile p = [] := List.dropWhile_eq_nil_iff.mpr hb
      rw [List.nil_append, hnil, List.rdropWhile_nil]
  | cons c s =>
      have hstop : Stops p (c :: s ++ b) := by simpa using hs.1
      rw [dropWhile_of_stops hstop, rdropWhile_pad hb, rdropWhile_of_last hs.2]

/-- The two ends that stripping takes off. -/
theorem stripBy_parts (s : Str) : ∃ a b, s = a ++ stripBy p s ++ b ∧
    (∀ c ∈ a, p c = true) ∧ ∀ c ∈ b, p c = true := by
  refine ⟨s.takeWhile p, (s.dropWhile p).rtakeWhile p, ?_, ?_, ?_⟩
  · rw [List.append_assoc, stripBy, List.rdropWhile_append_rtakeWhile,
      List.takeWhile_append_dropWhile]
  · exact fun c hc => List.mem_takeWhile_imp hc
  · exact fun c hc => List.mem_rtakeWhile_imp hc

end strip

theorem strip_of_trimmed {s : Str} (h : Trimmed s) : strip s = s := stripBy_of_trimmed h

theorem trimmed_strip (s : Str) : Trimmed (strip s) := trimmed_stripBy s

theorem trimmed_of_forall {s : Str} (h : ∀ c ∈ s, isSpace c = false) : Trimmed s :=
  ⟨fun c hc => h c (List.mem_of_mem_head? hc), fun c hc => h c (List.mem_of_mem_getLast? hc)⟩

/-- A trimmed text may hold anything between two trimmed, non-empty ends. -/
theorem Trimmed.append {s t : Str} (hs : Trimmed s) (ht : Trimmed t) (hs' : s ≠ []) (ht' : t ≠ [])
    (m : Str) : Trimmed (s ++ m ++ t) := by
  constructor
  · intro c hc
    rw [List.append_assoc, List.head?_append_of_ne_nil _ hs'] at hc
    exact hs.1 c hc
  · intro c hc
    rw [List.getLast?_append_of_ne_nil _ ht'] at hc
    exact ht.2 c hc

/-! ## What splitting does -/

theorem takeWhile_run {p : Char → Bool} {w r : Str} (hw : ∀ c ∈ w, p c = true) (hr : Stops p r) :
    (w ++ r).takeWhile p = w ∧ (w ++ r).dropWhile p = r := by
  rw [List.takeWhile_append_of_pos hw, List.dropWhile_append_of_pos hw]
  cases r with
  | nil => simp
  | cons c r => rw [stops_cons] at hr; simp [hr]

/-- One word alone. -/
theorem split1_word {w : Str} (hne : w ≠ []) (hw : ∀ c ∈ w, isSpace c = false) :
    split1 w = [w] := by
  obtain ⟨c, t, rfl⟩ := List.exists_cons_of_ne_nil hne
  have hrun := takeWhile_run (p := fun d => !isSpace d) (w := c :: t) (r := [])
    (by simpa using hw) (by simp)
  rw [List.append_nil] at hrun
  have hl : lstrip (c :: t) = c :: t := dropWhile_of_stops (trimmed_of_forall hw).1
  simp only [split1, hl, hrun.1, hrun.2]
  rfl

/-- A word, whitespace, and a rest that starts with a non-space. -/
theorem split1_cons {w gap r : Str} (hne : w ≠ []) (hw : ∀ c ∈ w, isSpace c = false)
    (hgap : gap ≠ []) (hgap' : ∀ c ∈ gap, isSpace c = true) (hr : r ≠ []) (hr' : Stops isSpace r) :
    split1 (w ++ gap ++ r) = [w, r] := by
  obtain ⟨c, t, rfl⟩ := List.exists_cons_of_ne_nil hne
  obtain ⟨g, gs, rfl⟩ := List.exists_cons_of_ne_nil hgap
  obtain ⟨d, r, rfl⟩ := List.exists_cons_of_ne_nil hr
  have hrun := takeWhile_run (p := fun d => !isSpace d) (w := c :: t) (r := g :: gs ++ d :: r)
    (by simpa using hw) (by simpa using hgap' g (by simp))
  have hc : isSpace c = false := hw c (by simp)
  have hl : lstrip (c :: t ++ (g :: gs) ++ d :: r) = c :: (t ++ (g :: gs ++ d :: r)) := by
    rw [lstrip, dropWhile_of_stops] <;> simp [hc]
  have hl' : lstrip (g :: gs ++ d :: r) = d :: r := by
    rw [lstrip, List.dropWhile_append_of_pos hgap', dropWhile_of_stops hr']
  simp only [List.cons_append, List.append_assoc] at hrun hl hl' ⊢
  simp only [split1, hl, hrun.1, hrun.2, hl']

theorem splitWs_cons_space {c : Char} (hc : isSpace c = true) (s : Str) :
    splitWs (c :: s) = splitWs s := by
  rw [splitWs, if_pos hc]

theorem splitWs_cons {c : Char} (hc : isSpace c = false) (s : Str) :
    splitWs (c :: s) = glueWord c s.head? (splitWs s) := by
  rw [splitWs, if_neg (by rw [hc]; decide)]

theorem glueWord_of_stops (c : Char) {r : Str} (hr : Stops (fun d => !isSpace d) r) :
    glueWord c r.head? (splitWs r) = [c] :: splitWs r := by
  cases r with
  | nil => rfl
  | cons d r =>
      have hd : isSpace d = true := by simpa using hr
      cases h : splitWs (d :: r) <;> simp [glueWord, hd]

theorem splitWs_space {p : Str} (hp : ∀ c ∈ p, isSpace c = true) (s : Str) :
    splitWs (p ++ s) = splitWs s := by
  induction p with
  | nil => rfl
  | cons c p ih =>
      rw [List.cons_append, splitWs_cons_space (hp c (by simp))]
      exact ih fun d hd => hp d (by simp [hd])

theorem splitWs_word {w : Str} (hne : w ≠ []) (hw : ∀ c ∈ w, isSpace c = false) {r : Str}
    (hr : Stops (fun c => !isSpace c) r) : splitWs (w ++ r) = w :: splitWs r := by
  induction w with
  | nil => exact absurd rfl hne
  | cons c w ih =>
      rw [List.cons_append, splitWs_cons (hw c (by simp))]
      cases w with
      | nil => exact glueWord_of_stops c hr
      | cons d w =>
          have hd : isSpace d = false := hw d (by simp)
          rw [ih (by simp) fun x hx => hw x (by simp [hx])]
          simp [glueWord, hd]

theorem splitWs_append_space {q : Str} (hq : ∀ c ∈ q, isSpace c = true) (s : Str) :
    splitWs (s ++ q) = splitWs s := by
  have hnil : splitWs q = [] := by
    have h := splitWs_space hq []
    rwa [List.append_nil] at h
  induction s with
  | nil => exact hnil
  | cons c s ih =>
      rw [List.cons_append]
      by_cases hc : isSpace c = true
      · rw [splitWs_cons_space hc, splitWs_cons_space hc, ih]
      · rw [Bool.not_eq_true] at hc
        rw [splitWs_cons hc, splitWs_cons hc, ih]
        cases s with
        | nil => cases q <;> rfl
        | cons d s => rfl

theorem isSpace_of_isHex {c : Char} (h : isHex c = true) : isSpace c = false := by
  obtain ⟨hlo, hhi⟩ := isHex_range h
  unfold isSpace
  simp only [Bool.or_eq_false_iff, Bool.and_eq_false_iff, decide_eq_false_iff_not, beq_eq_false_iff_ne]
  omega

theorem splitlinesGo_run {w : Str} (hw : ∀ c ∈ w, isLineBreak c = false) (cur s : Str) :
    splitlinesGo cur (w ++ '\n' :: s) = (cur ++ w) :: splitlinesGo [] s := by
  induction w generalizing cur with
  | nil =>
      have hn : isLineBreak '\n' = true := by decide
      simp [splitlinesGo, hn]
  | cons c w ih =>
      have hc : isLineBreak c = false := hw c (by simp)
      have hr : c ≠ '\r' := by rintro rfl; exact absurd hc (by decide)
      have hstep : splitlinesGo cur (c :: (w ++ '\n' :: s)) =
          splitlinesGo (cur ++ [c]) (w ++ '\n' :: s) := by
        rw [splitlinesGo]
        · rw [if_neg (by rw [hc]; decide)]
        · intro s' h _; exact hr h
      rw [List.cons_append, hstep, ih fun d hd => hw d (by simp [hd])]
      simp

/-- The lines of a text printed line by line. -/
theorem splitlines_lines {ls : List Str} (h : ∀ l ∈ ls, ∀ c ∈ l, isLineBreak c = false) :
    splitlines (ls.flatMap (· ++ ['\n'])) = ls := by
  induction ls with
  | nil => rfl
  | cons l ls ih =>
      have hl := splitlinesGo_run (h l (by simp)) [] (ls.flatMap (· ++ ['\n']))
      have ih' := ih fun m hm => h m (by simp [hm])
      unfold splitlines at ih' ⊢
      simpa [ih'] using hl

/-! ## The literals `int()` reads -/

theorem intSign_parts (t : Str) : ∃ sign, t = sign ++ (intSign t).2 ∧
    sign ∈ ["".toList, "+".toList, "-".toList] := by
  unfold intSign
  split
  · exact ⟨"+".toList, rfl, by simp⟩
  · exact ⟨"-".toList, rfl, by simp⟩
  · exact ⟨[], rfl, by simp⟩

theorem dropUnderscore_parts (t : Str) : t = dropUnderscore t ∨ t = '_' :: dropUnderscore t := by
  unfold dropUnderscore
  split
  · exact Or.inr rfl
  · exact Or.inl rfl

theorem dropHexPrefix_parts (t : Str) : ∃ pre, t = pre ++ dropHexPrefix t ∧
    (pre = [] ∨ pre ∈ ["0x".toList, "0X".toList, "0x_".toList, "0X_".toList]) := by
  unfold dropHexPrefix
  split
  · rename_i r
    rcases dropUnderscore_parts r with h | h
    · exact ⟨"0x".toList, congrArg ("0x".toList ++ ·) h, by simp⟩
    · exact ⟨"0x_".toList, congrArg ("0x".toList ++ ·) h, by simp⟩
  · rename_i r
    rcases dropUnderscore_parts r with h | h
    · exact ⟨"0X".toList, congrArg ("0X".toList ++ ·) h, by simp⟩
    · exact ⟨"0X_".toList, congrArg ("0X".toList ++ ·) h, by simp⟩
  · exact ⟨[], rfl, Or.inl rfl⟩

theorem litBody_parts (base : Nat) (t : Str) : ∃ pre, t = pre ++ litBody base t ∧
    (pre = [] ∨ base = 16 ∧ pre ∈ ["0x".toList, "0X".toList, "0x_".toList, "0X_".toList]) := by
  unfold litBody
  split
  · rename_i h16
    obtain ⟨pre, hpre, hpre'⟩ := dropHexPrefix_parts t
    exact ⟨pre, hpre, hpre'.imp id fun h' => ⟨h16, h'⟩⟩
  · exact ⟨[], rfl, Or.inl rfl⟩

theorem dropHexPrefix_of_no_x {s : Str} (h : ∀ x ∈ s, x ≠ 'x' ∧ x ≠ 'X') :
    dropHexPrefix s = s := by
  unfold dropHexPrefix
  split
  · exact absurd rfl (h 'x' (by simp)).1
  · exact absurd rfl (h 'X' (by simp)).2
  · rfl

theorem dropUnderscore_underscore (r : Str) : dropUnderscore ('_' :: r) = r := rfl

theorem dropUnderscore_cons {c : Char} (hc : c ≠ '_') (r : Str) :
    dropUnderscore (c :: r) = c :: r := by
  unfold dropUnderscore
  split
  · rename_i h; cases h; exact absurd rfl hc
  · rfl

theorem digitVal_range {c : Char} {v : Nat} (h : digitVal c = some v) : 48 ≤ c.toNat := by
  have hle : ∀ d : Char, d ≤ c → d.toNat ≤ c.toNat := fun d hd => UInt32.le_iff_toNat_le.mp hd
  unfold digitVal at h
  split at h
  · rename_i hc; exact hle '0' hc.1
  · split at h
    · rename_i hc; exact (by decide : 48 ≤ 'a'.toNat).trans (hle 'a' hc.1)
    · split at h
      · rename_i hc; exact (by decide : 48 ≤ 'A'.toNat).trans (hle 'A' hc.1)
      · cases h

section literals

variable [UnicodeDB]

/-- **The integer literals of `int(s, base)`**: whitespace, a sign, for base 16 a `0x` prefix,
then groups of digits with single underscores between them, whitespace; in base 10 at most
`maxStrDigits` digits. -/
def IsIntLiteral (base : Nat) (s : Str) : Prop :=
  ∃ (lead sign pre : Str) (groups : List Str) (trail : Str),
    s = lead ++ (sign ++ pre ++ ['_'].intercalate groups) ++ trail ∧
    (∀ c ∈ lead, intSpace c = true) ∧ (∀ c ∈ trail, intSpace c = true) ∧
    sign ∈ ["".toList, "+".toList, "-".toList] ∧
    (pre = [] ∨ base = 16 ∧ pre ∈ ["0x".toList, "0X".toList, "0x_".toList, "0X_".toList]) ∧
    groups ≠ [] ∧ (∀ g ∈ groups, g ≠ [] ∧ ∀ c ∈ g, (intDigit base c).isSome) ∧
    (base = 10 → groups.flatten.length ≤ maxStrDigits)

theorem intDigit_ascii {base : Nat} {c : Char} (hc : c.toNat < 127) :
    intDigit base c = (digitVal c).filter (· < base) := by
  rw [intDigit, if_pos hc]

/-- Underscores, signs and the `x` of a prefix are no digits. -/
theorem intDigit_punct {base : Nat} (hb : base ≤ 16) {c : Char}
    (hc : c ∈ ['_', '+', '-', 'x', 'X']) : intDigit base c = none := by
  have hno : ∀ c ∈ ['_', '+', '-', 'x', 'X'], digitVal c = none ∨ digitVal c = some 33 :=
    forall_chars (by decide)
  have hlt : ∀ c ∈ ['_', '+', '-', 'x', 'X'], c.toNat < 127 := forall_chars (by decide)
  rw [intDigit_ascii (hlt c hc)]
  rcases hno c hc with h | h
  · rw [h]; rfl
  · rw [h, Option.filter_some, if_neg (by simp; omega)]

theorem intSpace_of_intDigit {base : Nat} {c : Char} (h : (intDigit base c).isSome) :
    intSpace c = false := by
  obtain ⟨v, hv⟩ := Option.isSome_iff_exists.mp h
  obtain ⟨hv, -⟩ := Option.filter_eq_some_iff.mp hv
  by_cases hc : c.toNat < 127
  · rw [if_pos hc] at hv
    have h48 := digitVal_range hv
    rw [intSpace, if_pos hc, Bool.eq_false_iff]
    intro hsp
    simp only [Bool.or_eq_true, Bool.and_eq_true, decide_eq_true_eq, beq_iff_eq] at hsp
    rcases hsp with hsp | rfl
    · omega
    · exact absurd h48 (by decide)
  · rw [if_neg hc] at hv
    rw [intSpace, if_neg hc]
    by_contra hsp
    rw [if_pos (by simpa using hsp)] at hv
    cases hv

theorem digitGroup_isSome {base : Nat} {g : Str} :
    (digitGroup base g).isSome ↔ g ≠ [] ∧ ∀ c ∈ g, (intDigit base c).isSome := by
  rw [digitGroup]
  by_cases hg : g = []
  · simp [hg]
  · rw [if_neg hg, isSome_mapM, and_iff_right hg]

/-- Reading the groups keeps the number of digits. -/
theorem length_flatten_of_mapM {base : Nat} {gs : List Str} {vs : List (List Nat)}
    (h : gs.mapM (digitGroup base) = some vs) : vs.flatten.length = gs.flatten.length := by
  have hrel := forall₂_of_mapM h
  clear h
  induction hrel with
  | nil => rfl
  | @cons g v gs vs hg _ ih =>
      have hlen : v.length = g.length := by
        rw [digitGroup] at hg
        split at hg
        · cases hg
        · exact (forall₂_of_mapM hg).length_eq.symm
      simp only [List.flatten_cons, List.length_append, hlen, ih]

theorem ne_of_intDigit {base : Nat} (hb : base ≤ 16) {c y : Char}
    (hc : (intDigit base c).isSome) (hy : y ∈ ['_', '+', '-', 'x', 'X']) : c ≠ y := by
  rintro rfl
  rw [intDigit_punct hb hy] at hc
  cases hc

/-- The digits and underscores of a literal, as what its groups are joined into: it starts and
ends with a digit and has no `x`. -/
theorem intercalate_groups {base : Nat} (hb : base ≤ 16) : {gs : List Str} → gs ≠ [] →
    (∀ g ∈ gs, g ≠ [] ∧ ∀ c ∈ g, (intDigit base c).isSome) →
    ∃ c r, ['_'].intercalate gs = c :: r ∧ (intDigit base c).isSome ∧
      (∀ d ∈ (c :: r).getLast?, (intDigit base d).isSome) ∧
      ∀ x ∈ c :: r, x ≠ 'x' ∧ x ≠ 'X'
  | [], hne, _ => absurd rfl hne
  | [g], _, hgs => by
      obtain ⟨hg, hd⟩ := hgs g (by simp)
      obtain ⟨c, r, rfl⟩ := List.exists_cons_of_ne_nil hg
      exact ⟨c, r, by simp, hd c (by simp), fun d hd' => hd d (List.mem_of_mem_getLast? hd'),
        fun x hx => ⟨ne_of_intDigit hb (hd x hx) (by simp), ne_of_intDigit hb (hd x hx) (by simp)⟩⟩
  | g :: g' :: gs, _, hgs => by
      obtain ⟨c', r', hbody, hc', hlast, hx⟩ :=
        intercalate_groups hb (show g' :: gs ≠ [] by simp) fun h hh => hgs h (by simp [hh])
      obtain ⟨hg, hd⟩ := hgs g (by simp)
      obtain ⟨c, r, rfl⟩ := List.exists_cons_of_ne_nil hg
      refine ⟨c, r ++ '_' :: (c' :: r'), ?_, hd c (by simp), ?_, ?_⟩
      · rw [List.intercalate_cons_cons, hbody]; simp
      · intro d hd'
        rw [← List.cons_append, List.getLast?_append_of_ne_nil _ (by simp),
          List.getLast?_cons_cons] at hd'
        exact hlast d hd'
      · intro x hx'
        rw [← List.cons_append, List.mem_append, List.mem_cons (b := '_')] at hx'
        rcases hx' with hx' | hx' | hx'
        · exact ⟨ne_of_intDigit hb (hd x hx') (by simp), ne_of_intDigit hb (hd x hx') (by simp)⟩
        · subst hx'; decide
        · exact hx x hx'

/-- Reading a literal put together from its parts. -/
theorem parseInt_parts {base : Nat} (hb : base = 10 ∨ base = 16) {lead sign pre trail : Str}
    {groups : List Str} {ds : List (List Nat)} (hlead : ∀ c ∈ lead, intSpace c = true)
    (htrail : ∀ c ∈ trail, intSpace c = true)
    (hsign : sign ∈ ["".toList, "+".toList, "-".toList])
    (hpre : pre = [] ∨ base = 16 ∧ pre ∈ ["0x".toList, "0X".toList, "0x_".toList, "0X_".toList])
    (hne : groups ≠ []) (hgs : groups.mapM (digitGroup base) = some ds) :
    parseInt base (lead ++ (sign ++ pre ++ ['_'].intercalate groups) ++ trail) =
      if base = 10 ∧ maxStrDigits < ds.flatten.length then none
      else some (if sign = "-".toList then -(ofDigits base ds.flatten : Int)
        else ofDigits base ds.flatten) := by
  have hb16 : base ≤ 16 := by omega
  have hg : ∀ g ∈ groups, g ≠ [] ∧ ∀ c ∈ g, (intDigit base c).isSome := fun g hg =>
    digitGroup_isSome.mp (isSome_mapM.mp (by rw [hgs]; rfl) g hg)
  obtain ⟨c, r, hbody, hc, hlast, hx⟩ := intercalate_groups hb16 hne hg
  have hcs : intSpace c = false := intSpace_of_intDigit hc
  have hsplit : (c :: r).splitOn '_' = groups := by
    rw [← hbody]
    refine List.splitOn_intercalate '_' (fun g hg' hmem => ?_) hne
    exact ne_of_intDigit hb16 ((hg g hg').2 '_' hmem) (by simp) rfl
  -- stripping leaves sign, prefix and digits
  have hstrip : stripBy intSpace (lead ++ (sign ++ pre ++ c :: r) ++ trail) =
      sign ++ pre ++ c :: r := by
    refine stripBy_pad ⟨?_, ?_⟩ hlead htrail
    · simp only [List.mem_cons, List.not_mem_nil, or_false] at hsign hpre
      rcases hsign with rfl | rfl | rfl <;> rcases hpre with rfl | ⟨-, rfl | rfl | rfl | rfl⟩ <;>
        simp [hcs] <;> decide
    · intro d hd
      rw [List.getLast?_append_of_ne_nil _ (by simp)] at hd
      exact intSpace_of_intDigit (hlast d hd)
  -- the sign
  have hsgn : intSign (sign ++ pre ++ c :: r) = (decide (sign = "-".toList), pre ++ c :: r) := by
    have hplus : c ≠ '+' := ne_of_intDigit hb16 hc (by simp)
    have hminus : c ≠ '-' := ne_of_intDigit hb16 hc (by simp)
    simp only [List.mem_cons, List.not_mem_nil, or_false] at hsign hpre
    rcases hsign with rfl | rfl | rfl
    · rcases hpre with rfl | ⟨-, rfl | rfl | rfl | rfl⟩ <;> simp [intSign, hplus, hminus]
    · simp [intSign]
    · simp [intSign]
  -- the prefix
  have hdigits : litBody base (pre ++ c :: r) = c :: r := by
    have hus : c ≠ '_' := ne_of_intDigit hb16 hc (by simp)
    rcases hpre with rfl | ⟨h16, hpre⟩
    · rw [List.nil_append, litBody, dropHexPrefix_of_no_x hx, ite_self]
    · simp only [List.mem_cons, List.not_mem_nil, or_false] at hpre
      rcases hpre with rfl | rfl | rfl | rfl <;>
        simp [litBody, h16, dropHexPrefix, dropUnderscore_cons hus, dropUnderscore_underscore]
  rw [hbody, parseInt, hstrip, hsgn]
  simp only [hdigits, hsplit, hgs, decide_eq_true_eq]

/-- **`int(s, base)` raises no `ValueError` exactly on its literals.** -/
theorem parseInt_isSome_iff {base : Nat} (hb : base = 10 ∨ base = 16) {s : Str} :
    (parseInt base s).isSome ↔ IsIntLiteral base s := by
  constructor
  · intro h
    obtain ⟨lead, trail, hs, hlead, htrail⟩ := stripBy_parts (p := intSpace) s
    obtain ⟨sign, hsign, hsign'⟩ := intSign_parts (stripBy intSpace s)
    obtain ⟨pre, hpre, hpre'⟩ := litBody_parts base (intSign (stripBy intSpace s)).2
    generalize hu : litBody base (intSign (stripBy intSpace s)).2 = u at hpre
    cases hgs : (u.splitOn '_').mapM (digitGroup base) with
    | none => simp [parseInt, hu, hgs] at h
    | some ds =>
        refine ⟨lead, sign, pre, u.splitOn '_', trail, ?_, hlead, htrail, hsign', hpre', by simp,
          ?_, ?_⟩
        · rw [List.intercalate_splitOn, List.append_assoc sign, ← hpre, ← hsign, ← hs]
        · intro g hg
          exact digitGroup_isSome.mp (isSome_mapM.mp (by rw [hgs]; rfl) g hg)
        · intro h10
          rw [← length_flatten_of_mapM hgs]
          by_contra hlt
          rw [not_le] at hlt
          simp only [parseInt, hu, hgs, if_pos (And.intro h10 hlt)] at h
          cases h
  · rintro ⟨lead, sign, pre, groups, trail, rfl, hlead, htrail, hsign, hpre, hne, hg, hlen⟩
    have hgs : (groups.mapM (digitGroup base)).isSome :=
      isSome_mapM.mpr fun g hg' => digitGroup_isSome.mpr (hg g hg')
    obtain ⟨ds, hds⟩ := Option.isSome_iff_exists.mp hgs
    rw [parseInt_parts hb hlead htrail hsign hpre hne hds, if_neg]
    · rfl
    · rintro ⟨h10, hlt⟩
      rw [length_flatten_of_mapM hds] at hlt
      have := hlen h10
      omega

/-! ## Reading printed numbers -/

theorem intDigit_digitChar {d : Nat} (hd : d < 16) : intDigit 16 (Nat.digitChar d) = some d := by
  have hascii : ∀ d : Fin 16, (Nat.digitChar d).toNat < 127 := by decide
  rw [intDigit_ascii (hascii ⟨d, hd⟩), digitVal_digitChar hd]
  simp [hd]

theorem digitGroup_hex (v : Nat) : ∃ ds, digitGroup 16 (hex v) = some ds ∧ ofDigits 16 ds = v := by
  obtain ⟨ds, hds, hlt, hv⟩ := readDigits_toDigits (b := 16) (by decide) (by decide) v
  refine ⟨ds, ?_, hv⟩
  rw [digitGroup, if_neg (hex_ne_nil v), ← hds]
  refine mapM_congr_mem fun c hc => ?_
  obtain ⟨d, hd, rfl⟩ := mem_toDigits (by decide) hc
  rw [intDigit_digitChar hd, digitVal_digitChar hd]

/-- Reading the hexadecimal text of a number, with or without its prefix. -/
theorem parseInt_hex (v : Nat) : parseInt 16 (hex v) = some (v : Int) := by
  obtain ⟨ds, hds, hv⟩ := digitGroup_hex v
  have hread : [hex v].mapM (digitGroup 16) = some [ds] := by simp [hds]
  have h : parseInt 16 ([] ++ ([] ++ [] ++ ['_'].intercalate [hex v]) ++ []) = _ :=
    parseInt_parts (Or.inr rfl) (by simp) (by simp) (by simp) (Or.inl rfl) (by simp) hread
  simpa [hv] using h

theorem parseInt_0x_hex (v : Nat) : parseInt 16 ("0x".toList ++ hex v) = some (v : Int) := by
  obtain ⟨ds, hds, hv⟩ := digitGroup_hex v
  have hread : [hex v].mapM (digitGroup 16) = some [ds] := by simp [hds]
  have h : parseInt 16 ([] ++ ([] ++ "0x".toList ++ ['_'].intercalate [hex v]) ++ []) = _ :=
    parseInt_parts (Or.inr rfl) (by simp) (by simp) (by simp) (Or.inr ⟨rfl, by simp⟩) (by simp)
      hread
  simpa [hv] using h

theorem intDigit_of_isHex {c : Char} (h : isHex c = true) : (intDigit 16 c).isSome := by
  obtain ⟨hlo, hhi⟩ := isHex_range h
  have h0' : '0'.toNat = 48 := rfl
  have ha' : 'a'.toNat = 97 := rfl
  rw [intDigit_ascii (by omega)]
  simp only [isHex, Bool.or_eq_true, Bool.and_eq_true, decide_eq_true_eq] at h
  have hval : ∃ v < 16, digitVal c = some v := by
    by_cases hdec : '0' ≤ c ∧ c ≤ '9'
    · have h9 : c.toNat ≤ '9'.toNat := UInt32.le_iff_toNat_le.mp hdec.2
      have h9' : '9'.toNat = 57 := rfl
      exact ⟨c.toNat - '0'.toNat, by omega, if_pos hdec⟩
    · obtain ⟨ha, hf⟩ := h.resolve_left hdec
      refine ⟨c.toNat - 'a'.toNat + 10, by omega, ?_⟩
      rw [digitVal, if_neg hdec, if_pos ⟨ha, Char.le_trans hf (by decide)⟩]
  obtain ⟨v, hv, hval⟩ := hval
  rw [hval, Option.filter_some, if_pos (by simpa using hv)]
  rfl

/-- A non-empty run of hexadecimal digits is a literal. -/
theorem isSome_parseInt_hexRun {w : Str} (hne : w ≠ []) (hw : ∀ c ∈ w, isHex c = true) :
    (parseInt 16 w).isSome := by
  rw [parseInt_isSome_iff (Or.inr rfl)]
  refine ⟨[], [], [], [w], [], by simp, by simp, by simp, by simp, Or.inl rfl, by simp, ?_, by simp⟩
  intro g hg
  obtain rfl := List.mem_singleton.mp hg
  exact ⟨hne, fun c hc => intDigit_of_isHex (hw c hc)⟩

end literals

end X86Scripts.Py
