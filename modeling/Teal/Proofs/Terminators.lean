import Mathlib.Data.List.Chain
import Teal.Token.Terminator

/-!
# Where terminators stand

The terminator pass keeps the words of a stream and decides only what stands between them. At most
one terminator stands there, and it does just if the tokens had a line break or a terminator there,
or if one of the words is a closing brace. A pass over tokens that an error ends is the pass over
any longer list of tokens, broken off before the last token it has seen.

## Main definitions

* `Token.isWord`: whether a token is neither a line break nor a terminator.
* `Token.Terminates`: tokens with terminators in place of line breaks.

## Main statements

* `Token.terminateFrom_append`: the pass over a list is the pass over its first part, resumed.
* `TokenStream.terminates_terminate`: what the pass makes of a stream.
-/

namespace Teal

namespace Token

def isWord (t : Token) : Bool :=
  t.kind ≠ .lineBreak && t.kind ≠ .terminator

/-- `output` is `input` with terminators in place of line breaks. -/
structure Terminates (input output : List Token) : Prop where
  /-- No line break is left. -/
  noLineBreak : ∀ t ∈ output, t.kind ≠ .lineBreak
  /-- No two terminators stand next to each other. -/
  apart : output.IsChain fun s t => s.kind = .terminator → t.kind ≠ .terminator
  /-- A terminator ends the tokens, if there are any. -/
  ended : ∀ t ∈ output.getLast?, t.kind = .terminator
  /-- The words stay, in their order. -/
  words : output.filter isWord = input.filter isWord
  /-- Between two words stands a terminator just if something stood there, or if one of the words
  is a closing brace. -/
  between {before gap after : List Token} {x y : Token} :
    input = before ++ x :: (gap ++ y :: after) → x.isWord → y.isWord → (∀ t ∈ gap, ¬ t.isWord) →
    ∃ before' gap' after', output = before' ++ x :: (gap' ++ y :: after') ∧
      before'.filter isWord = before.filter isWord ∧ (∀ t ∈ gap', t.kind = .terminator) ∧
      (gap' ≠ [] ↔ gap ≠ [] ∨ x.kind = .rightBrace ∨ y.kind = .rightBrace)
  /-- A terminator comes first just if one stood before the first word. -/
  begins : (∃ t ∈ output.head?, t.kind = .terminator) ↔
    ∃ t ∈ input.takeWhile (! ·.isWord), t.kind = .terminator

/-! ## One token -/

theorem isWord_iff {t : Token} : t.isWord ↔ t.kind ≠ .lineBreak ∧ t.kind ≠ .terminator := by
  simp [isWord]

@[simp] theorem separator_kind (t : Token) : t.separator.kind = .terminator := rfl

@[simp] theorem isWord_separator (t : Token) : t.separator.isWord = false := rfl

@[simp] theorem lastKind_nil (last : Option Kind) : lastKind last [] = last := rfl

theorem lastKind_append (last : Option Kind) (ts us : List Token) :
    lastKind last (ts ++ us) = lastKind (lastKind last ts) us := by
  cases h : us.getLast? <;> simp [lastKind, List.getLast?_append, h]

/-- A word is written, with a terminator after it if one is due. -/
theorem terminated_word {t : Token} (h : t.isWord) (last : Option Kind) (next : Kind) :
    terminated last t next =
      t :: if needsTerminator t.kind next then [t.separator] else [] := by
  obtain ⟨hbreak, hterm⟩ := isWord_iff.mp h
  have hkept : kept last t = [t] := by
    unfold kept
    split <;> simp_all
  simp only [terminated, hkept, lastKind]
  cases needsTerminator t.kind next <;> simp [hterm]

/-- After a terminator, only words are written. -/
theorem terminated_gap {t : Token} (h : ¬ t.isWord) (next : Kind) :
    terminated (some .terminator) t next = [] := by
  have hkept : kept (some .terminator) t = [] := by
    unfold kept
    split <;> simp_all [isWord_iff]
  simp [terminated, hkept]

theorem filter_terminated (last : Option Kind) (t : Token) (next : Kind) :
    (terminated last t next).filter isWord = [t].filter isWord := by
  have hkept : (kept last t).filter isWord = [t].filter isWord := by
    unfold kept
    split <;> grind [isWord_iff]
  simp only [terminated]
  split
  · rw [List.filter_append, hkept]
    simp
  · exact hkept

theorem kind_of_mem_terminated {last : Option Kind} {t u : Token} {next : Kind}
    (h : u ∈ terminated last t next) : u.kind ≠ .lineBreak := by
  have hkept : ∀ u ∈ kept last t, u.kind ≠ .lineBreak := by
    unfold kept
    grind
  simp only [terminated] at h
  grind [separator_kind]

/-- No two terminators stand next to each other, not even one and what was written before. -/
def Apart : Option Kind → List Token → Prop
  | _, [] => True
  | last, t :: ts => (last = some .terminator → t.kind ≠ .terminator) ∧ Apart (some t.kind) ts

theorem lastKind_cons (last : Option Kind) (t : Token) (ts : List Token) :
    lastKind last (t :: ts) = lastKind (some t.kind) ts :=
  lastKind_append last [t] ts

theorem Apart.append {last : Option Kind} {ts us : List Token} (h : Apart last ts)
    (h' : Apart (lastKind last ts) us) : Apart last (ts ++ us) := by
  induction ts generalizing last with
  | nil => exact h'
  | cons t ts ih =>
    rw [lastKind_cons] at h'
    exact ⟨h.1, ih h.2 h'⟩

theorem Apart.isChain {last : Option Kind} {ts : List Token} (h : Apart last ts) :
    ts.IsChain fun s t => s.kind = .terminator → t.kind ≠ .terminator := by
  fun_induction Apart last ts with
  | case1 => exact .nil
  | case2 last t ts ih =>
    refine List.isChain_cons.mpr ⟨fun u hu hkind => ?_, ih h.2⟩
    cases ts with
    | nil => cases hu
    | cons u' ts =>
      cases hu
      exact h.2.1 (by rw [hkind])

theorem apart_terminated (last : Option Kind) (t : Token) (next : Kind) :
    Apart last (terminated last t next) := by
  have hkept : Apart last (kept last t) := by
    unfold kept
    split
    · trivial
    · split
      · trivial
      · next h => exact ⟨fun hlast => absurd hlast h, trivial⟩
    · next h => exact ⟨fun _ => h, trivial⟩
  simp only [terminated]
  split
  · next h =>
    refine hkept.append ⟨fun hlast => ?_, trivial⟩
    simp [hlast] at h
  · exact hkept

/-! ## The pass -/

/-- The pass over a list of tokens is the pass over its first part up to a token that it has
only seen, resumed at this token. -/
theorem terminateFrom_append (fails : Bool) (last : Option Kind) (before : List Token)
    (x : Token) (after : List Token) :
    terminateFrom fails last (before ++ x :: after) =
      terminateFrom true last (before ++ [x]) ++
        terminateFrom fails (lastKind last (terminateFrom true last (before ++ [x])))
          (x :: after) := by
  induction before generalizing last with
  | nil => simp [terminateFrom]
  | cons t before ih =>
    cases before with
    | nil => simp [terminateFrom]
    | cons u before =>
      simp only [List.cons_append] at ih
      simp only [List.cons_append, terminateFrom]
      rw [ih, List.append_assoc, lastKind_append]

theorem filter_terminateFrom (fails : Bool) (last : Option Kind) (ts : List Token) :
    (terminateFrom fails last ts).filter isWord =
      (if fails then ts.dropLast else ts).filter isWord := by
  fun_induction terminateFrom fails last ts with
  | case1 => simp
  | case2 last t hfails => simp [hfails]
  | case3 last t hfails => simp [hfails, filter_terminated]
  | case4 last t next rest written ih =>
    rw [List.filter_append, ih, filter_terminated]
    cases fails <;> simp [← List.filter_append]

theorem kind_of_mem_terminateFrom {fails : Bool} {last : Option Kind} {ts : List Token} {u : Token}
    (h : u ∈ terminateFrom fails last ts) : u.kind ≠ .lineBreak := by
  fun_induction terminateFrom fails last ts <;> grind [kind_of_mem_terminated]

theorem apart_terminateFrom (fails : Bool) (last : Option Kind) (ts : List Token) :
    Apart last (terminateFrom fails last ts) := by
  fun_induction terminateFrom fails last ts with
  | case1 | case2 => trivial
  | case3 last t => exact apart_terminated last t _
  | case4 last t next rest written ih => exact (apart_terminated last t next.kind).append ih

/-- Before a line break, a terminator is written last if anything is. -/
theorem lastKind_terminated (last : Option Kind) (t : Token) :
    lastKind last (terminated last t .lineBreak) ∈ [none, some .terminator] := by
  have hkept (h : t.kind = .terminator) : lastKind last (kept last t) = some .terminator := by
    unfold kept
    grind [lastKind]
  simp only [terminated]
  split
  · simp [lastKind]
  · next h =>
    cases hlast : lastKind last (kept last t) with
    | none => simp
    | some k =>
      by_cases hterm : t.kind = .terminator
      · simpa [hlast] using hkept hterm
      · simpa [hlast, needsTerminator, hterm] using h

/-- After the last token a terminator is written, unless nothing was written at all. -/
theorem lastKind_terminateFrom (last : Option Kind) {ts : List Token} (h : ts ≠ []) :
    lastKind last (terminateFrom false last ts) ∈ [none, some .terminator] := by
  fun_induction terminateFrom false last ts with
  | case1 => exact absurd rfl h
  | case2 => contradiction
  | case3 last t => exact lastKind_terminated last t
  | case4 last t next rest written ih =>
    rw [lastKind_append]
    exact ih (List.cons_ne_nil _ _)

/-- A word is written first. -/
theorem terminateFrom_word {t : Token} (h : t.isWord) (last : Option Kind) (ts : List Token) :
    ∃ after, terminateFrom false last (t :: ts) = t :: after := by
  cases ts with
  | nil => exact ⟨_, by rw [terminateFrom, if_neg (by simp), terminated_word h]⟩
  | cons u ts => exact ⟨_, by rw [terminateFrom, terminated_word h, List.cons_append]⟩

/-- What begins the tokens: a terminator just if one stood before the first word. -/
theorem head?_terminateFrom (ts : List Token) :
    (∃ t ∈ (terminateFrom false none ts).head?, t.kind = .terminator) ↔
      ∃ t ∈ ts.takeWhile (! ·.isWord), t.kind = .terminator := by
  induction ts with
  | nil => simp [terminateFrom]
  | cons t ts ih =>
    by_cases hword : t.isWord
    · obtain ⟨after, hafter⟩ := terminateFrom_word hword none ts
      simp [hafter, hword, (isWord_iff.mp hword).2]
    · by_cases hterm : t.kind = .terminator
      · have hwritten (next : Kind) : terminated none t next = [t] := by
          simp [terminated, kept, hterm, lastKind]
        cases ts <;> simp [terminateFrom, hwritten, hword, hterm]
      · have hbreak : t.kind = .lineBreak := by simpa [isWord, hterm] using hword
        have hwritten (next : Kind) : terminated none t next = [] := by
          simp [terminated, kept, hbreak, lastKind]
        cases ts with
        | nil => simp [terminateFrom, hwritten, hword, hterm]
        | cons u ts => simpa [terminateFrom, hwritten, hword, hterm] using ih

/-! ## Between words -/

/-- After a terminator, nothing is written up to the next word. -/
theorem terminateFrom_gap {gap : List Token} (h : ∀ t ∈ gap, ¬ t.isWord) (y : Token)
    (after : List Token) :
    terminateFrom false (some .terminator) (gap ++ y :: after) =
      terminateFrom false (some .terminator) (y :: after) := by
  induction gap with
  | nil => rfl
  | cons t gap ih =>
    rw [List.forall_mem_cons] at h
    obtain ⟨u, us, hgap⟩ : ∃ u us, gap ++ y :: after = u :: us := by cases gap <;> simp
    rw [← ih h.2, List.cons_append, hgap, terminateFrom, terminated_gap h.1]
    rfl

/-- After a word and a terminator, nothing is written up to the next word. -/
theorem terminateFrom_terminator {g : Token} (hg : g.kind = .terminator) {k : Kind}
    (hk : k ≠ .terminator) {gap : List Token} (h : ∀ t ∈ gap, ¬ t.isWord) (y : Token)
    (after : List Token) :
    terminateFrom false (some k) (g :: (gap ++ y :: after)) =
      g :: terminateFrom false (some .terminator) (y :: after) := by
  obtain ⟨u, us, hgap⟩ : ∃ u us, gap ++ y :: after = u :: us := by cases gap <;> simp
  have hwritten : terminated (some k) g u.kind = [g] := by
    simp [terminated, kept, hg, hk, lastKind]
  rw [← terminateFrom_gap h, hgap, terminateFrom, hwritten, lastKind_cons, hg]
  rfl

/-- What is written for a word and for what stands before the next one. -/
theorem terminateFrom_between {x y : Token} (hx : x.isWord) (hy : y.isWord) {gap : List Token}
    (h : ∀ t ∈ gap, ¬ t.isWord) (last : Option Kind) (after : List Token) :
    ∃ gap' after',
      terminateFrom false last (x :: (gap ++ y :: after)) = x :: (gap' ++ y :: after') ∧
      (∀ t ∈ gap', t.kind = .terminator) ∧
      (gap' ≠ [] ↔ gap ≠ [] ∨ x.kind = .rightBrace ∨ y.kind = .rightBrace) := by
  have hxterm := (isWord_iff.mp hx).2
  cases gap with
  | nil =>
    obtain ⟨after', hafter⟩ := terminateFrom_word hy
      (lastKind last (terminated last x y.kind)) after
    refine ⟨if needsTerminator x.kind y.kind then [x.separator] else [], after', ?_, ?_, ?_⟩
    · rw [List.nil_append, terminateFrom, hafter, terminated_word hx, List.cons_append]
    · split <;> simp
    · obtain ⟨hybreak, hyterm⟩ := isWord_iff.mp hy
      have hneeds :
          needsTerminator x.kind y.kind ↔ x.kind = .rightBrace ∨ y.kind = .rightBrace := by
        simp [needsTerminator, hxterm, hybreak, hyterm]
      cases hdue : needsTerminator x.kind y.kind <;> simp [← hneeds, hdue]
  | cons g gap =>
    rw [List.forall_mem_cons] at h
    obtain ⟨after', hafter⟩ := terminateFrom_word hy (some .terminator) after
    by_cases hg : g.kind = .terminator
    · have hwritten : terminated last x g.kind = [x] := by
        simp [terminated_word hx, needsTerminator, hxterm, hg]
      refine ⟨[g], after', ?_, by simpa using hg, by simp⟩
      rw [List.cons_append, terminateFrom, hwritten, lastKind_cons, lastKind_nil,
        terminateFrom_terminator hg hxterm h.2, hafter]
      rfl
    · have hbreak : g.kind = .lineBreak := by simpa [isWord, hg] using h.1
      have hwritten : terminated last x g.kind = [x, x.separator] := by
        simp [terminated_word hx, needsTerminator, hxterm, hbreak]
      refine ⟨[x.separator], after', ?_, by simp, by simp⟩
      have hskip := terminateFrom_gap (List.forall_mem_cons.mpr h) y after
      rw [List.cons_append] at hskip ⊢
      rw [terminateFrom, hwritten, show lastKind last [x, x.separator] = some .terminator from rfl,
        hskip, hafter]
      rfl

end Token

/-- The terminator pass puts terminators in place of the line breaks of a stream without an error.
In a stream that an error ends, the last token before the error has only been seen: what is written
is what is written for the tokens before that one, whatever would have followed it, and the error
stays as it is. -/
theorem TokenStream.terminates_terminate :
    (∀ tokens, Token.Terminates tokens (terminate { tokens }).tokens ∧
      (terminate { tokens }).failure = none) ∧
    (∀ error, terminate { tokens := [], failure := some error } =
      { tokens := [], failure := some error }) ∧
    ∀ before x error, ∃ written,
      terminate { tokens := before ++ [x], failure := some error } =
        { tokens := written, failure := some error } ∧
      written.filter Token.isWord = before.filter Token.isWord ∧
      ∀ after, (terminate { tokens := before ++ x :: after }).tokens =
        written ++ Token.terminateFrom false (Token.lastKind none written) (x :: after) := by
  have filter_before (before : List Token) (x : Token) :
      (Token.terminateFrom true none (before ++ [x])).filter Token.isWord =
        before.filter Token.isWord := by
    simp [Token.filter_terminateFrom]
  refine ⟨fun tokens => ⟨?_, rfl⟩, fun error => rfl, fun before x error => ?_⟩
  · refine ⟨fun t => Token.kind_of_mem_terminateFrom, (Token.apart_terminateFrom ..).isChain, ?_,
      Token.filter_terminateFrom false none tokens, ?_, Token.head?_terminateFrom tokens⟩
    · intro t ht
      have hne : tokens ≠ [] := by
        rintro rfl
        cases ht
      have hlast := Token.lastKind_terminateFrom none hne
      have ht : (Token.terminateFrom false none tokens).getLast? = some t := ht
      simpa [Token.lastKind, ht] using hlast
    · rintro before gap after x y rfl hx hy hgap
      let written := Token.terminateFrom true none (before ++ [x])
      obtain ⟨gap', after', heq, hgap', hiff⟩ :=
        Token.terminateFrom_between hx hy hgap (Token.lastKind none written) after
      refine ⟨written, gap', after', ?_, filter_before before x, hgap', hiff⟩
      exact (Token.terminateFrom_append false none before x _).trans (by rw [heq])
  · refine ⟨Token.terminateFrom true none (before ++ [x]), rfl, filter_before before x, ?_⟩
    exact fun after => Token.terminateFrom_append false none before x after

end Teal
