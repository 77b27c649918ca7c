import Teal.Json.Printer
import Teal.Json.Reader

/-!
# Documents as texts

A document is read back from its text, on one line or with one item to a line, if it does not
nest too deep; otherwise its text is refused. The two ways to write are one, up to the blanks
between the parts.

## Main definitions

* `Json.depth`: how many arrays and objects stand inside each other.
* `Json.Faithful`: a document that the written form can tell from any other.
* `Json.Layout`, `Json.spell`: a document written with blanks between its parts.

## Main statements

* `Json.readValue_spell`: what is read from the text of a document.
* `Json.parse_compact`, `Json.parse_pretty`: whole texts.
-/

namespace Teal.Json

/-! ## Documents -/

mutual

/-- How many arrays and objects of a document stand inside each other. -/
def depth : Json → Nat
  | .arr items => itemsDepth items + 1
  | .obj fields => fieldsDepth fields + 1
  | _ => 0

def itemsDepth : List Json → Nat
  | [] => 0
  | j :: rest => max (depth j) (itemsDepth rest)

def fieldsDepth : List (String × Json) → Nat
  | [] => 0
  | (_, j) :: rest => max (depth j) (fieldsDepth rest)

end

theorem itemsDepth_cons_le {j : Json} {rest : List Json} {d : Nat} :
    itemsDepth (j :: rest) ≤ d ↔ j.depth ≤ d ∧ itemsDepth rest ≤ d := by
  rw [itemsDepth, Nat.max_le]

theorem fieldsDepth_cons_le {name : String} {j : Json} {rest : List (String × Json)} {d : Nat} :
    fieldsDepth ((name, j) :: rest) ≤ d ↔ j.depth ≤ d ∧ fieldsDepth rest ≤ d := by
  rw [fieldsDepth, Nat.max_le]

/-- A text that does not go on with a number before it. -/
def Delimits (text : List Char) : Prop :=
  ∀ c ∈ text.head?, c.isDigit = false ∧ c ≠ '.' ∧ c ≠ 'e' ∧ c ≠ 'E'

def Number.Exact (x : Float) : Prop :=
  ∀ rest, Delimits rest → read ((Decimal.json.write x).toList ++ rest) = some (.float x, rest)

/-- The written form tells a document from any other: its integers have 64 bits, its doubles are
read as they were written, and its fields are in order. -/
inductive Faithful : Json → Prop
  | null : Faithful .null
  | bool (b : Bool) : Faithful (.bool b)
  | int {n : Int} (least : Int64.minValue.toInt ≤ n) (most : n < UInt64.size) : Faithful (.int n)
  | float {x : Float} (exact : Number.Exact x) : Faithful (.float x)
  | str (s : String) : Faithful (.str s)
  | arr {items : List Json} (all : ∀ j ∈ items, Faithful j) : Faithful (.arr items)
  | obj {fields : List (String × Json)} (ordered : Table.Ordered fields)
      (all : ∀ f ∈ fields, Faithful f.2) : Faithful (.obj fields)

/-! ## Layouts -/

/-- The blanks between the parts of a text: before the items of a level and before a closing
bracket, and after a colon. -/
structure Layout where
  gap : Nat → List Char
  afterColon : List Char
  gap_blank (level : Nat) : ∀ c ∈ gap level, isBlank c = true
  afterColon_blank : ∀ c ∈ afterColon, isBlank c = true

mutual

def spell (l : Layout) (level : Nat) : Json → List Char
  | .arr [] => ['[', ']']
  | .arr items => '[' :: spellItems l (level + 1) items ++ l.gap level ++ [']']
  | .obj [] => ['{', '}']
  | .obj fields => '{' :: spellFields l (level + 1) fields ++ l.gap level ++ ['}']
  | j => (scalar j).toList

def spellItems (l : Layout) (level : Nat) : List Json → List Char
  | [] => []
  | [j] => l.gap level ++ spell l level j
  | j :: rest => l.gap level ++ spell l level j ++ ',' :: spellItems l level rest

def spellFields (l : Layout) (level : Nat) : List (String × Json) → List Char
  | [] => []
  | [(name, j)] => l.gap level ++ (quote name).toList ++ ':' :: l.afterColon ++ spell l level j
  | (name, j) :: rest =>
    l.gap level ++ (quote name).toList ++ ':' :: l.afterColon ++ spell l level j ++
      ',' :: spellFields l level rest

end

def Layout.compact : Layout := ⟨fun _ => [], [], by simp, by simp⟩

def Layout.pretty : Layout where
  gap level := (newline level).toList
  afterColon := [' ']
  gap_blank level := by simp [newline, isBlank]
  afterColon_blank := by simp [isBlank]

mutual

theorem compact_eq_spell (level : Nat) (j : Json) : j.compact.toList = spell .compact level j := by
  match j with
  | .arr [] | .obj [] => rfl
  | .arr (j :: rest) =>
    simp [compact, spell, compactItems_eq_spell (level + 1) (j :: rest), Layout.compact]
  | .obj (f :: rest) =>
    simp [compact, spell, compactFields_eq_spell (level + 1) (f :: rest), Layout.compact]
  | .null | .bool _ | .int _ | .float _ | .str _ => simp [compact, spell]

theorem compactItems_eq_spell (level : Nat) (items : List Json) :
    (compactItems items).toList = spellItems .compact level items := by
  match items with
  | [] => rfl
  | [j] => simp [compactItems, spellItems, compact_eq_spell level j, Layout.compact]
  | j :: k :: rest =>
    simp [compactItems, spellItems, compact_eq_spell level j,
      compactItems_eq_spell level (k :: rest), Layout.compact]

theorem compactFields_eq_spell (level : Nat) (fields : List (String × Json)) :
    (compactFields fields).toList = spellFields .compact level fields := by
  match fields with
  | [] => rfl
  | [(name, j)] => simp [compactFields, spellFields, compact_eq_spell level j, Layout.compact]
  | (name, j) :: f :: rest =>
    simp [compactFields, spellFields, compact_eq_spell level j,
      compactFields_eq_spell level (f :: rest), Layout.compact]

end

mutual

theorem prettyAt_eq_spell (level : Nat) (j : Json) :
    (prettyAt level j).toList = spell .pretty level j := by
  match j with
  | .arr [] | .obj [] => simp [prettyAt, spell]
  | .arr (j :: rest) =>
    simp [prettyAt, spell, prettyItems_eq_spell (level + 1) (j :: rest), Layout.pretty]
  | .obj (f :: rest) =>
    simp [prettyAt, spell, prettyFields_eq_spell (level + 1) (f :: rest), Layout.pretty]
  | .null | .bool _ | .int _ | .float _ | .str _ => simp [prettyAt, spell]

theorem prettyItems_eq_spell (level : Nat) (items : List Json) :
    (prettyItems level items).toList = spellItems .pretty level items := by
  match items with
  | [] => rfl
  | [j] => simp [prettyItems, spellItems, prettyAt_eq_spell level j, Layout.pretty]
  | j :: k :: rest =>
    simp [prettyItems, spellItems, prettyAt_eq_spell level j,
      prettyItems_eq_spell level (k :: rest), Layout.pretty]

theorem prettyFields_eq_spell (level : Nat) (fields : List (String × Json)) :
    (prettyFields level fields).toList = spellFields .pretty level fields := by
  match fields with
  | [] => rfl
  | [(name, j)] => simp [prettyFields, spellFields, prettyAt_eq_spell level j, Layout.pretty]
  | (name, j) :: f :: rest =>
    simp [prettyFields, spellFields, prettyAt_eq_spell level j,
      prettyFields_eq_spell level (f :: rest), Layout.pretty]

end

/-! ## Blanks -/

theorem skipBlanks_append {blanks : List Char} (h : ∀ c ∈ blanks, isBlank c = true)
    (text : List Char) : skipBlanks (blanks ++ text) = skipBlanks text :=
  List.dropWhile_append_of_pos h

theorem skipBlanks_cons {c : Char} (h : isBlank c = false) (text : List Char) :
    skipBlanks (c :: text) = c :: text := by
  simp [skipBlanks, h]

theorem skipBlanks_skipBlanks (text : List Char) :
    skipBlanks (skipBlanks text) = skipBlanks text := by
  induction text with
  | nil => rfl
  | cons c rest ih =>
    cases hc : isBlank c with
    | true => simpa [skipBlanks, hc] using ih
    | false => rw [skipBlanks_cons hc, skipBlanks_cons hc]

/-- A document is read after the blanks before it. -/
theorem readValue_skipBlanks (depth : Nat) (text : List Char) :
    readValue depth (skipBlanks text) = readValue depth text := by
  cases depth <;> simp only [readValue, skipBlanks_skipBlanks]

theorem readValue_blanks {blanks : List Char} (h : ∀ c ∈ blanks, isBlank c = true) (depth : Nat)
    (text : List Char) : readValue depth (blanks ++ text) = readValue depth text := by
  rw [← readValue_skipBlanks, skipBlanks_append h, readValue_skipBlanks]

/-! ## Strings -/

theorem hexValue?_hexDigit {n : Nat} (h : n < 16) : hexValue? (hexDigit n) = some n := by
  have all : ∀ n < 16, hexValue? (hexDigit n) = some n := by decide
  exact all n h

/-- A character is read back from its form in a string. -/
theorem readString_escape (c : Char) (text : List Char) :
    readString .plain (escape c ++ text) =
      (readString .plain text).map fun (cs, after) => (c :: cs, after) := by
  unfold escape
  split
  · rfl
  · rfl
  · rfl
  · rfl
  · rfl
  · rfl
  · rfl
  · next hquote hbackslash _ _ _ _ _ =>
    split
    · next hcontrol =>
      have hunit : c.toNat / 16 * 16 + c.toNat % 16 = c.toNat := by omega
      have hhigh : isHigh c.toNat = false := by simp [isHigh]; omega
      have hlow : isLow c.toNat = false := by simp [isLow]; omega
      have hzero : hexValue? '0' = some 0 := by decide
      simp [readString, hzero, hexValue?_hexDigit (n := c.toNat / 16) (by omega),
        hexValue?_hexDigit (n := c.toNat % 16) (by omega), hunit, hhigh, hlow]
    · next hcontrol =>
      have hquote : c ≠ '"' := hquote
      have hbackslash : c ≠ '\\' := hbackslash
      simp [readString, hquote, hbackslash, hcontrol]

theorem readString_quote (s : String) (rest : List Char) :
    readString .plain (s.toList.flatMap escape ++ '"' :: rest) = some (s.toList, rest) := by
  induction s.toList with
  | nil => rfl
  | cons c cs ih =>
    rw [List.flatMap_cons, List.append_assoc, readString_escape, ih]
    rfl

/-! ## Numbers -/

namespace Number

theorem le_foldl_digits (n : Nat) (digits : List Char) :
    n ≤ digits.foldl (fun n c => n * 10 + (c.toNat - '0'.toNat)) n := by
  induction digits generalizing n with
  | nil => exact Nat.le_refl n
  | cons c rest ih =>
    calc n ≤ n * 10 + (c.toNat - '0'.toNat) := by omega
      _ ≤ _ := ih _

/-- A number of 64 bits takes up all its digits. -/
theorem accumulate_eq (n : Nat) (digits : List Char)
    (h : digits.foldl (fun n c => n * 10 + (c.toNat - '0'.toNat)) n < UInt64.size) :
    accumulate n digits = (digits.foldl (fun n c => n * 10 + (c.toNat - '0'.toNat)) n, []) := by
  induction digits generalizing n with
  | nil => rfl
  | cons c rest ih =>
    rw [List.foldl_cons] at h ⊢
    rw [accumulate, if_pos (Nat.lt_of_le_of_lt (le_foldl_digits _ rest) h), ih _ h]

theorem splitDigits_toDigits (n : Nat) {rest : List Char} (h : Delimits rest) :
    Numeral.splitDigits (Nat.toDigits 10 n ++ rest) = (Nat.toDigits 10 n, rest) := by
  have hdigits : ∀ c ∈ Nat.toDigits 10 n, c.isDigit = true := fun c hc =>
    Nat.isDigit_of_mem_toDigits (by decide) (by decide) hc
  rw [Numeral.splitDigits, List.takeWhile_append_of_pos hdigits,
    List.dropWhile_append_of_pos hdigits]
  cases rest with
  | nil => simp
  | cons c rest =>
    obtain ⟨hc, -⟩ := h c rfl
    simp [hc]

theorem readTail_eq (negative : Bool) (n : Nat) {rest : List Char} (h : Delimits rest) :
    readTail negative n 0 rest = some (ofWhole negative n, rest) := by
  cases rest with
  | nil => simp [readTail]
  | cons c rest =>
    obtain ⟨-, hpoint, he, hE⟩ := h c rfl
    simp [readTail, hpoint, he, hE]

theorem readMagnitude_toDigits (negative : Bool) {n : Nat} (hn : n < UInt64.size)
    {rest : List Char} (h : Delimits rest) :
    readMagnitude negative (Nat.toDigits 10 n ++ rest) = some (ofWhole negative n, rest) := by
  have hvalue : accumulate 0 (Nat.toDigits 10 n) = (n, []) := by
    have := accumulate_eq 0 (Nat.toDigits 10 n)
    rw [show (Nat.toDigits 10 n).foldl (fun n c => n * 10 + (c.toNat - '0'.toNat)) 0 = n from
      Numeral.natOfDigits_toDigits n] at this
    exact this hn
  simp only [readMagnitude, splitDigits_toDigits n h]
  split
  · next hnil => exact absurd hnil Nat.toDigits_ne_nil
  · next hzero =>
    -- only zero begins with a zero
    by_cases hpos : 0 < n
    · exact absurd (by simp [hzero]) (Numeral.head?_toDigits hpos)
    · simp [Nat.eq_zero_of_not_pos hpos] at hzero
  · rw [hvalue]
    exact readTail_eq negative n h

/-- An integer of 64 bits is read back from its text. -/
theorem read_int {n : Int} (least : Int64.minValue.toInt ≤ n) (most : n < UInt64.size)
    {rest : List Char} (h : Delimits rest) :
    read ((Int.repr n).toList ++ rest) = some (.int n, rest) := by
  have hmin : Int64.minValue.toInt = -9223372036854775808 := by decide
  cases n with
  | ofNat m =>
    have hm : m < UInt64.size := Int.ofNat_lt.mp most
    have hread : read (Nat.toDigits 10 m ++ rest) =
        readMagnitude false (Nat.toDigits 10 m ++ rest) := by
      cases hd : Nat.toDigits 10 m with
      | nil => exact absurd hd Nat.toDigits_ne_nil
      | cons d ds =>
        have hdigit : d.isDigit = true :=
          Nat.isDigit_of_mem_toDigits (by decide) (by decide) (hd ▸ List.mem_cons_self)
        have : d ≠ '-' := by
          rintro rfl
          cases hdigit
        simp [read, this]
    rw [Int.repr, Nat.toList_repr, hread, readMagnitude_toDigits false hm h]
    rfl
  | negSucc m =>
    have hm : m + 1 ≤ 9223372036854775808 := by omega
    rw [Int.repr, String.toList_append, Nat.toList_repr]
    change readMagnitude true (Nat.toDigits 10 (m + 1) ++ rest) = _
    rw [readMagnitude_toDigits true (Nat.lt_of_le_of_lt hm (by decide)) h]
    have hlimit : m + 1 ≤ Int64.minValue.toInt.natAbs := by
      rw [hmin]
      exact hm
    rw [ofWhole, if_pos rfl, if_pos ⟨Nat.succ_pos m, hlimit⟩]
    rfl

/-- A number begins with a digit or a minus. -/
theorem exists_of_read {text : List Char} {found : Json × List Char} (h : read text = some found) :
    ∃ c rest, text = c :: rest ∧ (c = '-' || c.isDigit) = true := by
  cases text with
  | nil => cases h
  | cons c rest =>
    refine ⟨c, rest, rfl, ?_⟩
    by_cases hminus : c = '-'
    · simp [hminus]
    · cases hdigit : c.isDigit with
      | true => simp
      | false => simp [read, hminus, readMagnitude, Numeral.splitDigits, hdigit] at h

/-- What begins a number is no other character. -/
theorem ne_of_first {c : Char} (hc : (c = '-' || c.isDigit) = true) (d : Char)
    (hd : (d = '-' || d.isDigit) = false) : c ≠ d := by
  rintro rfl
  exact Bool.false_ne_true (hd.symm.trans hc)

theorem isBlank_of_first {c : Char} (hc : (c = '-' || c.isDigit) = true) : isBlank c = false := by
  simp [isBlank, ne_of_first hc]

end Number

/-! ## Reading documents -/

/-- Commas and closing brackets end a number, also after blanks. -/
theorem delimits_append {blanks : List Char} (h : ∀ c ∈ blanks, isBlank c = true) {c : Char}
    (hc : c = ',' ∨ c = ']' ∨ c = '}') (rest : List Char) : Delimits (blanks ++ c :: rest) := by
  cases blanks with
  | nil =>
    intro x hx
    obtain rfl : c = x := by simpa using hx
    rcases hc with rfl | rfl | rfl <;> decide
  | cons b blanks =>
    intro x hx
    obtain rfl : b = x := by simpa using hx
    have hb := h b (by simp)
    simp only [isBlank, Bool.or_eq_true, decide_eq_true_eq] at hb
    rcases hb with ((rfl | rfl) | rfl) | rfl <;> decide

theorem delimits_comma (rest : List Char) : Delimits (',' :: rest) := by
  simpa using delimits_append (List.forall_mem_nil _) (.inl rfl) rest

theorem delimits_nil : Delimits [] :=
  nofun

/-- What begins with no bracket has no parts. -/
theorem readValue_of_scalar (depth : Nat) {c : Char} (hblank : isBlank c = false)
    (harray : c ≠ '[') (hobject : c ≠ '{') (text : List Char) :
    readValue depth (c :: text) = readScalar (c :: text) := by
  cases depth <;> simp [readValue, skipBlanks_cons hblank, harray, hobject]

theorem readValue_number (depth : Nat) {text : List Char} {found : Json × List Char}
    (h : Number.read text = some found) : readValue depth text = some found := by
  obtain ⟨c, rest, rfl, hc⟩ := Number.exists_of_read h
  rw [readValue_of_scalar depth (Number.isBlank_of_first hc) (Number.ne_of_first hc '[' rfl)
    (Number.ne_of_first hc '{' rfl)]
  simp [readScalar, Number.ne_of_first hc '"' rfl, hc, h]

theorem quote_toList (s : String) :
    (quote s).toList = '"' :: (s.toList.flatMap escape ++ ['"']) := by
  simp [quote]

/-- A document without parts is read back from its text. -/
theorem readValue_spell_scalar (l : Layout) {j : Json} (h : Faithful j) (hdepth : j.depth = 0)
    (depth level : Nat) {rest : List Char} (hrest : Delimits rest) :
    readValue depth (spell l level j ++ rest) = some (j, rest) := by
  cases h with
  | null => exact readValue_of_scalar depth (by decide) (by decide) (by decide) _
  | bool b =>
    cases b <;> exact readValue_of_scalar depth (by decide) (by decide) (by decide) _
  | int least most => exact readValue_number depth (Number.read_int least most hrest)
  | float exact => exact readValue_number depth (exact rest hrest)
  | str s =>
    have htext : spell l level (.str s) ++ rest =
        '"' :: (s.toList.flatMap escape ++ '"' :: rest) := by
      simp [spell, scalar, quote_toList]
    rw [htext, readValue_of_scalar depth (by decide) (by decide) (by decide), readScalar,
      readString_quote]
    simp
  | arr | obj => simp [Json.depth] at hdepth

/-- The text of a document begins with a visible character that closes nothing. -/
theorem exists_spell (l : Layout) {j : Json} (h : Faithful j) (level : Nat) :
    ∃ c rest, spell l level j = c :: rest ∧ isBlank c = false ∧ c ≠ ']' := by
  have number {text : List Char} {found : Json × List Char}
      (h : Number.read (text ++ []) = some found) :
      ∃ c rest, text = c :: rest ∧ isBlank c = false ∧ c ≠ ']' := by
    rw [List.append_nil] at h
    obtain ⟨c, rest, rfl, hc⟩ := Number.exists_of_read h
    exact ⟨c, rest, rfl, Number.isBlank_of_first hc, Number.ne_of_first hc ']' rfl⟩
  cases h with
  | null => exact ⟨'n', _, rfl, by decide, by decide⟩
  | bool b =>
    cases b
    · exact ⟨'f', _, rfl, by decide, by decide⟩
    · exact ⟨'t', _, rfl, by decide, by decide⟩
  | int least most => exact number (Number.read_int least most delimits_nil)
  | float exact => exact number (exact [] delimits_nil)
  | str s => exact ⟨'"', _, quote_toList s, by decide, by decide⟩
  | @arr items _ => cases items <;> exact ⟨'[', _, rfl, by decide, by decide⟩
  | @obj fields _ _ => cases fields <;> exact ⟨'{', _, rfl, by decide, by decide⟩

section Parts

variable (l : Layout) {depth level fuel : Nat} {close : List Char}

/-- Items are read one after the other, up to the first that nests too deep. -/
theorem readItems_spell (hclose : ∀ c ∈ close, isBlank c = true) {items : List Json}
    (hne : items ≠ []) (hitems : ∀ j ∈ items, ∀ rest, Delimits rest →
      readValue depth (spell l level j ++ rest) = if j.depth ≤ depth then some (j, rest) else none)
    (hfuel : items.length ≤ fuel) (rest : List Char) :
    readItems (readValue depth) fuel (spellItems l level items ++ (close ++ ']' :: rest)) =
      if itemsDepth items ≤ depth then some (items, rest) else none := by
  induction items generalizing fuel with
  | nil => exact absurd rfl hne
  | cons j items ih =>
    obtain ⟨fuel, rfl⟩ : ∃ m, fuel = m + 1 := ⟨fuel - 1, by simp at hfuel; omega⟩
    have first := hitems j (by simp)
    cases items with
    | nil =>
      simp only [spellItems, List.append_assoc, readItems]
      rw [readValue_blanks (l.gap_blank level), first _ (delimits_append hclose (by simp) rest)]
      by_cases hd : j.depth ≤ depth
      · simp [itemsDepth, hd, skipBlanks_append hclose, skipBlanks_cons (c := ']') rfl]
      · simp [itemsDepth, hd]
    | cons k items =>
      have others := ih (by simp) (fun j hj => hitems j (by simp [hj]))
        (by simpa using hfuel : (k :: items).length ≤ fuel)
      simp only [spellItems, List.append_assoc, List.cons_append, readItems] at others ⊢
      rw [readValue_blanks (l.gap_blank level), first _ (delimits_comma _)]
      by_cases hd : j.depth ≤ depth
      · have hiff : itemsDepth (j :: k :: items) ≤ depth ↔ itemsDepth (k :: items) ≤ depth := by
          rw [itemsDepth_cons_le]
          exact and_iff_right hd
        simp only [hd, if_true, Option.bind_some, skipBlanks_cons (c := ',') rfl, others, hiff]
        split <;> rfl
      · simp [itemsDepth_cons_le, hd]

/-- Fields are read one after the other, up to the first that nests too deep. -/
theorem readFields_spell (hclose : ∀ c ∈ close, isBlank c = true) {fields : List (String × Json)}
    (hne : fields ≠ []) (hfields : ∀ f ∈ fields, ∀ rest, Delimits rest →
      readValue depth (spell l level f.2 ++ rest) =
        if f.2.depth ≤ depth then some (f.2, rest) else none)
    (hfuel : fields.length ≤ fuel) (rest : List Char) :
    readFields (readValue depth) fuel (spellFields l level fields ++ (close ++ '}' :: rest)) =
      if fieldsDepth fields ≤ depth then some (fields, rest) else none := by
  induction fields generalizing fuel with
  | nil => exact absurd rfl hne
  | cons f fields ih =>
    obtain ⟨fuel, rfl⟩ : ∃ m, fuel = m + 1 := ⟨fuel - 1, by simp at hfuel; omega⟩
    obtain ⟨name, j⟩ := f
    have first (after : List Char) (h : Delimits after) :
        readValue depth (spell l level j ++ after) =
          if j.depth ≤ depth then some (j, after) else none := hfields (name, j) (by simp) after h
    -- what stands before the first document
    have named (after : List Char) : skipBlanks (l.gap level ++ (quote name).toList ++
        ':' :: l.afterColon ++ spell l level j ++ after) = '"' :: (name.toList.flatMap escape ++
          '"' :: ':' :: (l.afterColon ++ (spell l level j ++ after))) := by
      simp only [quote_toList, List.append_assoc, List.cons_append, List.nil_append]
      rw [skipBlanks_append (l.gap_blank level), skipBlanks_cons (c := '"') rfl]
    cases fields with
    | nil =>
      rw [spellFields, readFields, named]
      simp only [readString_quote, Option.bind_some, skipBlanks_cons (c := ':') rfl,
        readValue_blanks l.afterColon_blank]
      rw [first _ (delimits_append hclose (by simp) rest)]
      by_cases hd : j.depth ≤ depth
      · simp [fieldsDepth, hd, skipBlanks_append hclose, skipBlanks_cons (c := '}') rfl]
      · simp [fieldsDepth, hd]
    | cons g fields =>
      have others := ih (by simp) (fun f hf => hfields f (by simp [hf]))
        (by simpa using hfuel : (g :: fields).length ≤ fuel)
      have text : spellFields l level ((name, j) :: g :: fields) ++ (close ++ '}' :: rest) =
          l.gap level ++ (quote name).toList ++ ':' :: l.afterColon ++ spell l level j ++
            ',' :: (spellFields l level (g :: fields) ++ (close ++ '}' :: rest)) := by
        simp [spellFields]
      rw [text, readFields, named]
      simp only [readString_quote, Option.bind_some, skipBlanks_cons (c := ':') rfl,
        readValue_blanks l.afterColon_blank]
      rw [first _ (delimits_comma _)]
      by_cases hd : j.depth ≤ depth
      · have hiff : fieldsDepth ((name, j) :: g :: fields) ≤ depth ↔
            fieldsDepth (g :: fields) ≤ depth := by
          rw [fieldsDepth_cons_le]
          exact and_iff_right hd
        simp only [hd, if_true, Option.bind_some, skipBlanks_cons (c := ',') rfl, others, hiff]
        split <;> simp
      · simp [fieldsDepth_cons_le, hd]

end Parts

theorem length_skipBlanks_le (text : List Char) : (skipBlanks text).length ≤ text.length :=
  (List.dropWhile_sublist _).length_le

/-- Items have at least one character each, and the first one does not close their list. -/
theorem skipBlanks_spellItems (l : Layout) (level : Nat) {items : List Json} (hne : items ≠ [])
    (h : ∀ j ∈ items, Faithful j) (rest : List Char) :
    ∃ c text, skipBlanks (spellItems l level items ++ rest) = c :: text ∧ c ≠ ']' ∧
      items.length ≤ text.length + 1 := by
  induction items with
  | nil => exact absurd rfl hne
  | cons j items ih =>
    obtain ⟨c, text, hspell, hblank, hclose⟩ := exists_spell l (h j (by simp)) level
    cases items with
    | nil =>
      refine ⟨c, text ++ rest, ?_, hclose, by simp⟩
      simp [spellItems, hspell, skipBlanks_append (l.gap_blank level), skipBlanks_cons hblank]
    | cons k items =>
      obtain ⟨c', text', hothers, -, hlength⟩ := ih (by simp) fun j hj => h j (by simp [hj])
      refine ⟨c, text ++ ',' :: (spellItems l level (k :: items) ++ rest), ?_, hclose, ?_⟩
      · simp [spellItems, hspell, skipBlanks_append (l.gap_blank level), skipBlanks_cons hblank]
      · have := length_skipBlanks_le (spellItems l level (k :: items) ++ rest)
        simp only [hothers, List.length_cons, List.length_append] at this hlength ⊢
        omega

/-- Fields have at least one character each, and the first one does not close their list. -/
theorem skipBlanks_spellFields (l : Layout) (level : Nat) {fields : List (String × Json)}
    (hne : fields ≠ []) (rest : List Char) :
    ∃ text, skipBlanks (spellFields l level fields ++ rest) = '"' :: text ∧
      fields.length ≤ text.length + 1 := by
  induction fields with
  | nil => exact absurd rfl hne
  | cons f fields ih =>
    obtain ⟨name, j⟩ := f
    cases fields with
    | nil =>
      simp [spellFields, quote_toList, skipBlanks_append (l.gap_blank level),
        skipBlanks_cons (c := '"') rfl]
    | cons g fields =>
      obtain ⟨text', hothers, hlength⟩ := ih (by simp)
      have text : spellFields l level ((name, j) :: g :: fields) ++ rest =
          l.gap level ++ '"' :: (name.toList.flatMap escape ++ ['"'] ++ ':' :: l.afterColon ++
            spell l level j ++ ',' :: (spellFields l level (g :: fields) ++ rest)) := by
        simp [spellFields, quote_toList]
      refine ⟨_, by rw [text, skipBlanks_append (l.gap_blank level), skipBlanks_cons rfl], ?_⟩
      have := length_skipBlanks_le (spellFields l level (g :: fields) ++ rest)
      simp only [hothers, List.length_cons, List.length_append] at this hlength ⊢
      omega

theorem readItems_skipBlanks (depth fuel : Nat) (text : List Char) :
    readItems (readValue depth) fuel (skipBlanks text) = readItems (readValue depth) fuel text := by
  cases fuel with
  | zero => rfl
  | succ fuel => simp only [readItems, readValue_skipBlanks]

theorem readFields_skipBlanks (depth fuel : Nat) (text : List Char) :
    readFields (readValue depth) fuel (skipBlanks text) =
      readFields (readValue depth) fuel text := by
  cases fuel with
  | zero => rfl
  | succ fuel => simp only [readFields, skipBlanks_skipBlanks]

/-- A document is read back from its text if it nests no deeper than allowed, and refused
otherwise. -/
theorem readValue_spell (l : Layout) {j : Json} (h : Faithful j) (depth level : Nat)
    {rest : List Char} (hrest : Delimits rest) :
    readValue depth (spell l level j ++ rest) =
      if j.depth ≤ depth then some (j, rest) else none := by
  induction h generalizing depth level rest with
  | null => exact readValue_spell_scalar l .null rfl depth level hrest
  | bool b => exact readValue_spell_scalar l (.bool b) rfl depth level hrest
  | int least most => exact readValue_spell_scalar l (.int least most) rfl depth level hrest
  | float exact' => exact readValue_spell_scalar l (.float exact') rfl depth level hrest
  | str s => exact readValue_spell_scalar l (.str s) rfl depth level hrest
  | @arr items all ih =>
    cases items with
    | nil => cases depth <;> simp [spell, readValue, skipBlanks, isBlank, Json.depth, itemsDepth]
    | cons j items =>
      have text : spell l level (.arr (j :: items)) ++ rest =
          '[' :: (spellItems l (level + 1) (j :: items) ++ (l.gap level ++ ']' :: rest)) := by
        simp [spell]
      rw [text]
      cases depth with
      | zero => simp [readValue, skipBlanks_cons (c := '[') rfl, Json.depth]
      | succ depth =>
        obtain ⟨c, first, hfirst, hclose, hlength⟩ := skipBlanks_spellItems l (level + 1)
          (List.cons_ne_nil j items) all (l.gap level ++ ']' :: rest)
        have items_read := readItems_spell l (l.gap_blank level) (List.cons_ne_nil j items)
          (fun k hk rest hrest => ih k hk depth (level + 1) hrest) hlength rest
        rw [← readItems_skipBlanks, hfirst] at items_read
        have read_items : readValue (depth + 1)
            ('[' :: (spellItems l (level + 1) (j :: items) ++ (l.gap level ++ ']' :: rest))) =
            (readItems (readValue depth) (c :: first).length (c :: first)).map
              fun found => (.arr found.1, found.2) := by
          simp [readValue, skipBlanks_cons (c := '[') rfl, hfirst, hclose]
        rw [read_items, List.length_cons, items_read]
        simp only [Json.depth, Nat.add_le_add_iff_right]
        split <;> rfl
  | @obj fields ordered all ih =>
    cases fields with
    | nil => cases depth <;> simp [spell, readValue, skipBlanks, isBlank, Json.depth, fieldsDepth]
    | cons f fields =>
      have text : spell l level (.obj (f :: fields)) ++ rest =
          '{' :: (spellFields l (level + 1) (f :: fields) ++ (l.gap level ++ '}' :: rest)) := by
        simp [spell]
      rw [text]
      cases depth with
      | zero => simp [readValue, skipBlanks_cons (c := '{') rfl, Json.depth]
      | succ depth =>
        obtain ⟨first, hfirst, hlength⟩ := skipBlanks_spellFields l (level + 1)
          (List.cons_ne_nil f fields) (l.gap level ++ '}' :: rest)
        have fields_read := readFields_spell l (l.gap_blank level) (List.cons_ne_nil f fields)
          (fun g hg rest hrest => ih g hg depth (level + 1) hrest) hlength rest
        rw [← readFields_skipBlanks, hfirst] at fields_read
        have read_fields : readValue (depth + 1)
            ('{' :: (spellFields l (level + 1) (f :: fields) ++ (l.gap level ++ '}' :: rest))) =
            (readFields (readValue depth) ('"' :: first).length ('"' :: first)).map
              fun found => (.object found.1, found.2) := by
          simp [readValue, skipBlanks_cons (c := '{') rfl, hfirst]
        rw [read_fields, List.length_cons, fields_read]
        have same : object (f :: fields) = .obj (f :: fields) :=
          congrArg obj (Table.ofEntries_eq ordered (.refl _))
        simp only [Json.depth, Nat.add_le_add_iff_right]
        split <;> simp [same]

theorem parseWithin_spell (l : Layout) {j : Json} (h : Faithful j) (depth : Nat) {text : String}
    (htext : text.toList = spell l 0 j) :
    parseWithin depth text = if j.depth ≤ depth then some j else none := by
  have read := readValue_spell l h depth 0 delimits_nil
  rw [List.append_nil, ← htext] at read
  rw [parseWithin, read]
  split <;> rfl

/-- A document on one line is read back if it nests less than 128 deep, and refused otherwise. -/
theorem parse_compact {j : Json} (h : Faithful j) :
    parse j.compact = if j.depth ≤ maxDepth then some j else none :=
  parseWithin_spell .compact h maxDepth (compact_eq_spell 0 j)

/-- A document with one item to a line is read back if it nests less than 128 deep, and refused
otherwise. -/
theorem parse_pretty {j : Json} (h : Faithful j) :
    parse j.pretty = if j.depth ≤ maxDepth then some j else none :=
  parseWithin_spell .pretty h maxDepth (prettyAt_eq_spell 0 j)

end Teal.Json
