import Mathlib.Logic.Function.Iterate
import Teal.Proofs.Blame
import Teal.Proofs.Leaves

/-!
# What the parser makes of a stream

The parser is given tokens and errors of the lexer one after the other. It comes to an end with
every such stream: each round of its loops takes a token before it goes on, so the rounds never run
out. What it returns has the words of all tokens, and it returns no program if there is an error
among them.

## Main definitions

* `Parser.Descends`: a round goes on only with fewer tokens.
* `Parser.EndsWithin`, `Parser.Ends`: the loops end by themselves.
* `TokenStream.ofItems`: tokens up to the first error.

## Main statements

* `Parser.Descends.endsWithin`: such rounds make a loop that ends by itself.
* `Parser.ends_of_takes`: the loops of readers end if their operands take a token.
* `TokenStream.ofItems_cases`: a stream has all tokens, or those before an error.
* `Source.reading_of_parseStream`: the parser loses nothing and invents nothing.
-/

namespace Teal

namespace Parser

/-! ## Loops end -/

/-- What a reader reads takes at least one token. -/
def Progresses (r : Reader α) : Prop :=
  ∀ tokens, Yields (fun p => p.2.length < tokens.length) (r tokens)

theorem Takes.progresses {P : α → List Leaf → Prop} {r : Reader α} (h : Takes P r) :
    Progresses r :=
  fun tokens => (h tokens).mono fun _ hp => hp.2

theorem Yields.bind_congr {P : α → Prop} {x : Except ParseError α} {f g : α → Except ParseError β}
    (h : Yields P x) (hfg : ∀ a, P a → f a = g a) : x >>= f = x >>= g := by
  cases x with
  | error e => rfl
  | ok a => exact hfg a h

theorem length_skip_le (tokens : List Token) : (skipTerminators tokens).length ≤ tokens.length :=
  (suffix_skip tokens).length_le

section Rounds

variable {ι ρ β : Type} {reads : ι → ρ → List Token → β} {round : ρ → ρ} {loop : Nat → ρ}
  {f g : ρ} {n extra : Nat}

/-- Two readers do the same with fewer than `n` tokens. -/
def Agree (reads : ι → ρ → List Token → β) (n : Nat) (f g : ρ) : Prop :=
  ∀ i tokens, tokens.length < n → reads i f tokens = reads i g tokens

/-- A round takes a token before it goes on: what it does with some tokens depends only on what is
done with fewer. -/
def Descends (reads : ι → ρ → List Token → β) (round : ρ → ρ) : Prop :=
  ∀ f g n, Agree reads n f g → Agree reads (n + 1) (round f) (round g)

/-- A loop ends by itself. As many rounds as tokens and `extra` more are enough, since more of them
change nothing; and if they are more than the tokens, nothing depends on what is returned when they
run out. -/
structure EndsWithin (extra : Nat) (round : ρ → ρ) (loop : Nat → ρ) (read : ρ → List Token → β) :
    Prop where
  rounds : ∀ fuel, loop (fuel + 1) = round (loop fuel)
  same : ∀ tokens fuel, tokens.length + extra ≤ fuel →
    read (loop fuel) tokens = read (loop (tokens.length + extra)) tokens
  settled : ∀ tokens fuel, tokens.length < fuel → ∀ last,
    read (round^[fuel] last) tokens = read (loop fuel) tokens

theorem agree_zero : Agree reads 0 f g :=
  fun _ _ hlt => absurd hlt (Nat.not_lt_zero _)

theorem Descends.iterate (h : Descends reads round) (hfg : Agree reads n f g) (fuel : Nat) :
    Agree reads (n + fuel) (round^[fuel] f) (round^[fuel] g) := by
  induction fuel with
  | zero => exact hfg
  | succ fuel ih =>
    rw [Function.iterate_succ_apply', Function.iterate_succ_apply']
    exact h _ _ _ ih

theorem loop_eq_iterate (hrounds : ∀ fuel, loop (fuel + 1) = round (loop fuel)) (fuel m : Nat) :
    loop (m + fuel) = round^[fuel] (loop m) := by
  induction fuel with
  | zero => rfl
  | succ fuel ih => rw [Function.iterate_succ_apply', ← ih, ← Nat.add_assoc, hrounds]

/-- If the last round changes nothing where fewer than `n` tokens are left, as many rounds as tokens
and `1 - n` more are enough. -/
theorem Descends.endsWithin (h : Descends reads round)
    (hrounds : ∀ fuel, loop (fuel + 1) = round (loop fuel))
    (hlast : Agree reads n (loop 0) (loop 1)) (hextra : n + extra = 1) (i : ι) :
    EndsWithin extra round loop (reads i) where
  rounds := hrounds
  same tokens fuel hle := by
    induction hle with
    | refl => rfl
    | @step fuel hle ih =>
      have agree := h.iterate hlast fuel
      rw [← loop_eq_iterate hrounds, ← loop_eq_iterate hrounds, Nat.zero_add,
        Nat.add_comm 1] at agree
      rw [← ih]
      have hlt : tokens.length < n + fuel := by
        rw [Nat.le_eq] at hle
        omega
      exact (agree i tokens hlt).symm
  settled tokens fuel hlt last := by
    have agree := h.iterate (agree_zero (f := last) (g := loop 0)) fuel
    rw [agree i tokens (by omega), ← loop_eq_iterate hrounds, Nat.zero_add]

end Rounds

section Loops

variable {ctx : Context} {operand : Reader Expr}

theorem descends_chainRound (hop : Takes Expr.Reading operand) :
    Descends (fun (s : List Waiting × Expr) f => f s.1 s.2) (chainRound ctx operand) := by
  rintro f g n agree ⟨waiting, left⟩ tokens hlt
  cases tokens with
  | nil => rfl
  | cons t rest =>
    simp only [chainRound]
    split
    · rfl
    · split
      · rfl
      · next waiting _ =>
        refine (hop.progresses rest).bind_congr ?_
        rintro ⟨right, last⟩ htaken
        refine agree (waiting, right) last ?_
        simp only [List.length_cons] at hlt htaken
        omega

theorem descends_separatedRound {close : Token.Kind} {expected : String}
    {item : List α → Reader α} (hitem : ∀ items, Progresses (item items)) :
    Descends (fun items f => f items) (separatedRound ctx close expected item) := by
  intro f g n agree items tokens hlt
  have hskip := length_skip_le tokens
  simp only [separatedRound]
  split
  · rfl
  · refine (hitem items _).bind_congr ?_
    rintro ⟨a, rest⟩ htaken
    have hskip' := length_skip_le rest
    dsimp only at htaken ⊢
    split
    · next last heat =>
      have hle := (suffix_eat heat).length_le
      exact agree _ _ (by omega)
    · rfl

theorem descends_blockRound (hop : Takes Expr.Reading operand) :
    Descends (fun (_ : Unit) f => f) (blockRound ctx operand) := by
  intro f g n agree _ tokens hlt
  have hskip := length_skip_le tokens
  have hexpression : Progresses (expression ctx operand) := (takes_expression hop).progresses
  simp only [blockRound]
  split
  · rfl
  · next t rest heq =>
    rw [heq] at hskip
    split
    · rfl
    · refine (hexpression _).bind_congr ?_
      rintro ⟨item, rest⟩ htaken
      refine (suffix_endItem rest).bind_congr fun last hend => ?_
      have hle := hend.length_le
      dsimp only at htaken
      have hagain : f last = g last := agree () last (by omega)
      rw [hagain]

theorem descends_conditionalRound (hop : Takes Expr.Reading operand) :
    Descends (fun word f => f word) (conditionalRound ctx operand) := by
  intro f g n agree word tokens hlt
  have hexpression : Progresses (expression ctx operand) := (takes_expression hop).progresses
  have hblock : Progresses (block ctx operand) := (takes_block hop).progresses
  refine (hexpression tokens).bind_congr ?_
  rintro ⟨condition, rest⟩ htaken
  refine (hblock rest).bind_congr ?_
  rintro ⟨consequence, rest'⟩ htaken'
  have hjoin := (suffix_joinBranches rest').length_le
  dsimp only at htaken htaken' ⊢
  split
  · rfl
  · next t others heq =>
    rw [heq, List.length_cons] at hjoin
    split
    · have hagain : f t others = g t others := agree t others (by omega)
      rw [hagain]
    · rfl

end Loops

theorem descends_programRound (ctx : Context) :
    Descends (fun (_ : Unit) f => f) (programRound ctx) := by
  intro f g n agree _ tokens hlt
  have hskip := length_skip_le tokens
  have hexpression : Progresses (expression ctx (operand ctx maxDepth)) :=
    (takes_expression (takes_operand ctx maxDepth)).progresses
  simp only [programRound]
  split
  · rfl
  · next t rest heq =>
    rw [heq] at hskip
    refine (hexpression _).bind_congr ?_
    rintro ⟨first, rest⟩ htaken
    refine (suffix_endExpression rest).bind_congr fun last hend => ?_
    have hle := hend.length_le
    dsimp only at htaken
    have hagain : f last = g last := agree () last (by omega)
    rw [hagain]

theorem endsWithin_programFrom (ctx : Context) :
    EndsWithin 1 (programRound ctx) (programFrom ctx) fun f => f :=
  (descends_programRound ctx).endsWithin (fun _ => rfl) agree_zero rfl ()

/-- The loops of the readers end by themselves, within as many rounds as they are given. -/
structure Ends (ctx : Context) (operand : Reader Expr) : Prop where
  chain : ∀ waiting left, EndsWithin 0 (chainRound ctx operand) (chain ctx operand)
    fun f => f waiting left
  parameters : ∀ seen, EndsWithin 1 (separatedRound ctx .rightParen "`,` or `)`" (parameter ctx))
    (separated ctx .rightParen "`,` or `)`" (parameter ctx)) fun f => f seen
  arguments : ∀ args, EndsWithin 1
    (separatedRound ctx .rightParen "`,` or `)`" fun _ => argument ctx operand)
    (separated ctx .rightParen "`,` or `)`" fun _ => argument ctx operand) fun f => f args
  elements : ∀ items, EndsWithin 1
    (separatedRound ctx .rightBracket "`,` or `]`" fun _ => expression ctx operand)
    (separated ctx .rightBracket "`,` or `]`" fun _ => expression ctx operand) fun f => f items
  pairs : ∀ items, EndsWithin 1
    (separatedRound ctx .rightBrace "`,` or `\x7d`" fun _ => pair ctx operand)
    (separated ctx .rightBrace "`,` or `\x7d`" fun _ => pair ctx operand) fun f => f items
  blockItems : EndsWithin 1 (blockRound ctx operand) (blockItems ctx operand) fun f => f
  conditional : ∀ word, EndsWithin 1 (conditionalRound ctx operand) (conditional ctx operand)
    fun f => f word

theorem endsWithin_separated {ctx : Context} {close : Token.Kind} {expected : String}
    {item : List α → Reader α} (hitem : ∀ items, Progresses (item items)) (items : List α) :
    EndsWithin 1 (separatedRound ctx close expected item) (separated ctx close expected item)
      fun f => f items :=
  (descends_separatedRound hitem).endsWithin (fun _ => rfl) agree_zero rfl items

theorem ends_of_takes {ctx : Context} {operand : Reader Expr}
    (hop : Takes Expr.Reading operand) : Ends ctx operand where
  chain waiting left := by
    -- without tokens a chain ends as it does without rounds
    refine (descends_chainRound hop).endsWithin (n := 1) (fun _ => rfl) ?_ rfl (waiting, left)
    rintro s tokens hlt
    obtain rfl := List.length_eq_zero_iff.mp (Nat.lt_one_iff.mp hlt)
    rfl
  parameters := endsWithin_separated fun seen => (takes_parameter seen).progresses
  arguments := endsWithin_separated fun _ => (takes_argument hop).progresses
  elements := endsWithin_separated fun _ => (takes_expression hop).progresses
  pairs := endsWithin_separated fun _ => (takes_pair hop).progresses
  blockItems := (descends_blockRound hop).endsWithin (fun _ => rfl) agree_zero rfl ()
  conditional :=
    (descends_conditionalRound hop).endsWithin (fun _ => rfl) agree_zero rfl

end Parser

/-! ## Streams -/

namespace TokenStream

/-- Tokens and errors one after the other, of which what follows an error is not looked at. -/
def ofItems : List (Except LexError Token) → TokenStream
  | [] => ⟨[], none⟩
  | .ok t :: rest => ⟨t :: (ofItems rest).tokens, (ofItems rest).failure⟩
  | .error error :: _ => ⟨[], some error⟩

/-- A stream has the tokens up to the first error. -/
theorem ofItems_cases (items : List (Except LexError Token)) :
    ((ofItems items).failure = none ∧ items = (ofItems items).tokens.map .ok) ∨
      ∃ error after, (ofItems items).failure = some error ∧
        items = (ofItems items).tokens.map .ok ++ .error error :: after := by
  induction items with
  | nil => exact .inl ⟨rfl, rfl⟩
  | cons item rest ih =>
    cases item with
    | error error => exact .inr ⟨error, rest, rfl, rfl⟩
    | ok t =>
      obtain ⟨hfailure, hitems⟩ | ⟨error, after, hfailure, hitems⟩ := ih
      · exact .inl ⟨hfailure, congrArg (.ok t :: ·) hitems⟩
      · exact .inr ⟨error, after, hfailure, congrArg (.ok t :: ·) hitems⟩

end TokenStream

namespace Source

/-- The parser loses nothing of a stream of tokens and errors, and invents nothing. It ends: no loop
takes more rounds than there are tokens left, and it makes no difference what is returned when
rounds run out. If it returns a program, there is no error in the stream, and the leaves that are
read of the program are those of the tokens; so, if brackets and braces are left out on both sides,
its tags, names, symbols, literals and operators are those of the tokens, in order. If there is an
error, it fails, and if it gives an error of the lexer, it is the first one. -/
theorem reading_of_parseStream (source : Source) (items : List (Except LexError Token))
    (hcolon : ∀ t, .ok t ∈ items → t.Colonned) :
    let stream := TokenStream.ofItems items
    let ctx : Parser.Context := ⟨source.locate, source.endIndex, stream.failure⟩
    ((∀ depth, Parser.Ends ctx (Parser.operand ctx depth)) ∧
      Parser.EndsWithin 1 (Parser.programRound ctx) (Parser.programFrom ctx) fun f => f) ∧
    (∀ program, source.parseStream stream = .ok program →
      ∃ tokens leaves, items = tokens.map .ok ∧ Parser.Each Expr.Reading program leaves ∧
        Leaf.Spelled tokens leaves ∧
        (tokens.filter fun t => t.kind.isWord).map Token.leaf? =
          (leaves.filter Leaf.isWord).map some) ∧
    ((∃ error, .error error ∈ items) → ∃ e, source.parseStream stream = .error e) ∧
    ∀ error, source.parseStream stream = .error (.lex error) →
      ∃ (before : List Token) (after : List (Except LexError Token)),
        items = before.map .ok ++ .error error :: after := by
  intro stream ctx
  have hread : Parser.Yields _ (source.parseStream stream) :=
    @Parser.gives_programFrom ctx _ stream.tokens
  have hcases := TokenStream.ofItems_cases items
  refine ⟨⟨fun depth => Parser.ends_of_takes (Parser.takes_operand ctx depth), ?_⟩, ?_, ?_, ?_⟩
  · exact Parser.endsWithin_programFrom ctx
  · intro program hprogram
    obtain ⟨hfailure, leaves, hreading, taken, htaken, hspelled⟩ := hread.of_ok hprogram
    rw [List.append_nil] at htaken
    subst htaken
    obtain ⟨-, hitems⟩ | ⟨error, after, hfailed, -⟩ := hcases
    · have hspelled := hspelled fun t ht => hcolon t (by rw [hitems]; exact List.mem_map_of_mem ht)
      exact ⟨stream.tokens, leaves, hitems, hreading, hspelled, hspelled.words⟩
    · cases hfailed.symm.trans hfailure
  · rintro ⟨error, herror⟩
    cases hresult : source.parseStream stream with
    | error e => exact ⟨e, rfl⟩
    | ok program =>
      obtain ⟨hfailure, -⟩ := hread.of_ok hresult
      obtain ⟨-, hitems⟩ | ⟨error', after, hfailed, -⟩ := hcases
      · rw [hitems] at herror
        simp at herror
      · cases hfailed.symm.trans hfailure
  · intro error hresult
    have hfailed : stream.failure = some error := about_of_parseStream hresult
    obtain ⟨hfailure, -⟩ | ⟨error', after, hfailure, hitems⟩ := hcases
    · cases hfailed.symm.trans hfailure
    · cases hfailed.symm.trans hfailure
      exact ⟨stream.tokens, after, hitems⟩

def kept : Source where
  filename := "kept.tl"
  text := "#[pure]\nfn f(x) \x7b g(:k [x, -1], \"\\n\") + true \x7d"

/-- Its words are read back from its expressions, and an error after them is not forgotten. -/
theorem reading_of_parseStream_kept :
    let items := kept.lex.terminate.tokens.map Except.ok
    (∃ program leaves, kept.parseStream (.ofItems items) = .ok program ∧
      Parser.Each Expr.Reading program leaves ∧ leaves.filter Leaf.isWord =
        [.tag "pure", .name "f", .name "x", .name "g", .symbol "k", .name "x",
          .literal (.integer (-1)), .literal (.string "\n"), .operator (.calculate .add),
          .literal (.boolean true)]) ∧
    ∃ e, kept.parseStream (.ofItems
      (items ++ [.error (Lexeme.Fault.report kept ⟨.unclosedString, 40⟩)])) = .error e := by
  have hcolon : ∀ t ∈ kept.lex.terminate.tokens, t.Colonned := by
    unfold Token.Colonned
    decide +kernel
  have hwords : (kept.lex.terminate.tokens.filter fun t => t.kind.isWord).map Token.leaf? =
      [Leaf.tag "pure", .name "f", .name "x", .name "g", .symbol "k", .name "x",
        .literal (.integer (-1)), .literal (.string "\n"), .operator (.calculate .add),
        .literal (.boolean true)].map some := by
    rfl
  have hread : (kept.parseStream (.ofItems (kept.lex.terminate.tokens.map .ok))).toOption.isSome :=
    by decide +kernel
  refine ⟨?_, ?_⟩
  · cases hprogram : kept.parseStream (.ofItems (kept.lex.terminate.tokens.map .ok)) with
    | error e => simp [hprogram, Except.toOption] at hread
    | ok program =>
      obtain ⟨-, hleaves, -⟩ := reading_of_parseStream kept (kept.lex.terminate.tokens.map .ok)
        (by simpa using hcolon)
      obtain ⟨tokens, leaves, hitems, hreading, -, hspelled⟩ := hleaves program hprogram
      have htokens : kept.lex.terminate.tokens = tokens :=
        List.map_injective_iff.mpr (fun _ _ => Except.ok.inj) hitems
      rw [← htokens, hwords] at hspelled
      exact ⟨program, leaves, rfl, hreading,
        (List.map_injective_iff.mpr (fun _ _ => Option.some.inj) hspelled).symm⟩
  · obtain ⟨-, -, hfails, -⟩ := reading_of_parseStream kept
      (kept.lex.terminate.tokens.map .ok ++ [.error _]) (by simpa using hcolon)
    exact hfails ⟨_, List.mem_append_right _ List.mem_cons_self⟩

end Source

end Teal
