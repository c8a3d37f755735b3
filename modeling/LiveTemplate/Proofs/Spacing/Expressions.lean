import LiveTemplate.Proofs.Expr.Words
import LiveTemplate.Proofs.Spacing.Texts

/-!
# LiveTemplate.Proofs.Spacing.Expressions

Expressions with even blanks.

Each reader of a part of an expression reads the same from an even text, and leaves what it left
before, made even.  Between the parts no string is open: quotes are no characters of words, and
strings are read as wholes.
-/

namespace LiveTemplate

/-- What is left of a text, made even. -/
def evenRest {α : Type} (read : α × List Char) : α × List Char := (read.1, evenText none read.2)

/-- An outcome with what it leaves made even. -/
def Outcome.even {α : Type} : Outcome α → Outcome α
  | .ok value rest => .ok value (evenText none rest)
  | .noMatch => .noMatch
  | .positionalAfterHash => .positionalAfterHash

/-! ## words and blanks -/

/-- A class of characters without blanks and quotes. -/
def IsWordClass (p : Char → Bool) : Prop :=
  ∀ c, p c = true → isBlank c = false ∧ quoteBehind none c = none

theorem isWordClass_isPathCharacter : IsWordClass isPathCharacter := by
  intro c hc
  refine ⟨?_, ?_⟩
  · rw [← Bool.not_eq_true]
    intro hblank
    rw [isPathCharacter_of_isBlank hblank] at hc
    cases hc
  · rw [quoteBehind, if_neg]
    rintro (rfl | rfl) <;> exact absurd hc (by decide)

theorem IsWordClass.mono {p q : Char → Bool} (hq : IsWordClass q) (h : ∀ c, p c → q c) :
    IsWordClass p := fun c hc => hq c (h c hc)

theorem isWordClass_isKeyCharacter : IsWordClass isKeyCharacter :=
  isWordClass_isPathCharacter.mono fun _ => isPathCharacter_of_isKeyCharacter

theorem isWordClass_isDigit : IsWordClass Char.isDigit :=
  isWordClass_isPathCharacter.mono fun _ => isPathCharacter_of_isDigit

namespace IsWordClass

variable {p : Char → Bool} (hp : IsWordClass p)

include hp

theorem eq_of_isLike {c d : Char} (h : IsLike c d) : p c = p d := by
  have hblank : ∀ c, isBlank c = true → p c = false := by
    intro c hc
    rw [← Bool.not_eq_true]
    intro hpc
    rw [(hp c hpc).1] at hc
    cases hc
  exact h.eq_of_blanks fun c hc => by rw [hblank c hc, hblank ' ' rfl]

theorem evenText_cons {c : Char} (hc : p c = true) (s : List Char) :
    evenText none (c :: s) = c :: evenText none s := by
  obtain ⟨hblank, hquote⟩ := hp c hc
  rw [evenText, hquote, evenCharacter, hblank]
  rfl

theorem takeWhile_evenText (s : List Char) : (evenText none s).takeWhile p = s.takeWhile p := by
  induction s with
  | nil => rfl
  | cons c s ih =>
    cases hc : p c with
    | true => rw [hp.evenText_cons hc, List.takeWhile_cons, List.takeWhile_cons, hc, ih]
    | false =>
      rw [evenText, List.takeWhile_cons, List.takeWhile_cons,
        hp.eq_of_isLike (isLike_evenCharacter none c), hc]
      rfl

theorem dropWhile_evenText (s : List Char) :
    (evenText none s).dropWhile p = evenText none (s.dropWhile p) := by
  induction s with
  | nil => rfl
  | cons c s ih =>
    cases hc : p c with
    | true => rw [hp.evenText_cons hc, List.dropWhile_cons, List.dropWhile_cons, hc]; exact ih
    | false =>
      rw [evenText, List.dropWhile_cons, List.dropWhile_cons,
        hp.eq_of_isLike (isLike_evenCharacter none c), hc]
      rfl

theorem word?_evenText (s : List Char) : word? p (evenText none s) = (word? p s).map evenRest := by
  rw [word?, word?, hp.takeWhile_evenText, hp.dropWhile_evenText]
  split <;> rfl

end IsWordClass

theorem evenText_cons_of_isBlank {c : Char} (hc : isBlank c = true) (s : List Char) :
    evenText none (c :: s) = ' ' :: evenText none s := by
  rcases eq_of_isBlank hc with rfl | rfl | rfl | rfl <;> rfl

theorem skipBlanks_evenText (s : List Char) :
    skipBlanks (evenText none s) = evenText none (skipBlanks s) := by
  rw [skipBlanks, skipBlanks]
  induction s with
  | nil => rfl
  | cons c s ih =>
    cases hc : isBlank c with
    | true =>
      rw [evenText_cons_of_isBlank hc, List.dropWhile_cons, List.dropWhile_cons, hc]
      exact ih
    | false =>
      rw [evenText, List.dropWhile_cons, List.dropWhile_cons, isBlank_evenCharacter, hc]
      rfl

theorem skipBlanks?_evenText (s : List Char) :
    skipBlanks? (evenText none s) = (skipBlanks? s).map (evenText none) := by
  cases s with
  | nil => rfl
  | cons c s =>
    rw [skipBlanks?]
    cases hc : isBlank c with
    | true =>
      rw [evenText_cons_of_isBlank hc, skipBlanks?]
      exact congrArg some (skipBlanks_evenText s)
    | false =>
      rw [evenText, skipBlanks?, isBlank_evenCharacter, hc]
      rfl

/-! ## literals -/

theorem endsLiteral_evenText (s : List Char) : endsLiteral (evenText none s) = endsLiteral s := by
  cases s with
  | nil => rfl
  | cons c s =>
    rw [evenText, endsLiteral, endsLiteral,
      isWordClass_isPathCharacter.eq_of_isLike (isLike_evenCharacter none c)]

/-- Inside a string nothing is changed. -/
theorem cut?_evenText_quoted (q : Char) (s : List Char) :
    cut? [q] (evenText (some q) s) = (cut? [q] s).map evenRest := by
  induction s with
  | nil => rfl
  | cons c s ih =>
    by_cases hc : c = q
    · subst hc
      simp [cut?, dropMark?, evenText, evenCharacter, quoteBehind, evenRest]
    · simp [cut?, dropMark?, evenText, evenCharacter, quoteBehind, hc, Ne.symm hc, ih,
        Function.comp_def, evenRest]

theorem stringLiteral?_evenText (s : List Char) :
    stringLiteral? (evenText none s) = (stringLiteral? s).map evenRest := by
  have hquoted : ∀ (q : Char) (s : List Char),
      (cut? [q] (evenText (some q) s)).map (Prod.map String.ofList id) =
        ((cut? [q] s).map (Prod.map String.ofList id)).map evenRest := by
    intro q s
    rw [cut?_evenText_quoted, Option.map_map, Option.map_map]
    rfl
  rw [stringLiteral?.eq_def]
  split
  · next t h =>
    obtain ⟨u, rfl, rfl⟩ := exists_of_evenText_eq_cons rfl h
    exact hquoted '"' u
  · next t h =>
    obtain ⟨u, rfl, rfl⟩ := exists_of_evenText_eq_cons rfl h
    exact hquoted '\'' u
  · next hdouble hsingle =>
    rw [stringLiteral?.eq_def]
    split
    · exact absurd rfl (hdouble _)
    · exact absurd rfl (hsingle _)
    · rfl

theorem fraction_evenText (s : List Char) :
    fraction (evenText none s) = evenRest (fraction s) := by
  rw [fraction.eq_def]
  split
  · next t h =>
    obtain ⟨u, rfl, rfl⟩ := exists_of_evenText_eq_cons rfl h
    have hquote : quoteBehind none '.' = none := rfl
    rw [hquote, isWordClass_isDigit.takeWhile_evenText, isWordClass_isDigit.dropWhile_evenText,
      fraction]
    split <;> rfl
  · next hpoint =>
    rw [fraction.eq_def]
    split
    · exact absurd rfl (hpoint _)
    · rfl

theorem unsignedLiteral?_evenText (s : List Char) :
    unsignedLiteral? (evenText none s) = (unsignedLiteral? s).map evenRest := by
  rw [unsignedLiteral?, unsignedLiteral?, isWordClass_isDigit.takeWhile_evenText,
    isWordClass_isDigit.dropWhile_evenText]
  split
  · rfl
  · rw [fraction_evenText]
    simp only [evenRest, endsLiteral_evenText]
    split <;> rfl

theorem numberLiteral?_evenText (s : List Char) :
    numberLiteral? (evenText none s) = (numberLiteral? s).map evenRest := by
  rw [numberLiteral?.eq_def]
  split
  · next t h =>
    obtain ⟨u, rfl, rfl⟩ := exists_of_evenText_eq_cons rfl h
    show (unsignedLiteral? (evenText none u)).map _ = _
    rw [unsignedLiteral?_evenText, numberLiteral?, Option.map_map, Option.map_map]
    rfl
  · next hsign =>
    rw [unsignedLiteral?_evenText, numberLiteral?.eq_def]
    split
    · exact absurd rfl (hsign _)
    · rfl

theorem booleanLiteral?_evenText (s : List Char) :
    booleanLiteral? (evenText none s) = (booleanLiteral? s).map evenRest := by
  have htrue : isPlainWord ['t', 'r', 'u', 'e'] = true := rfl
  have hfalse : isPlainWord ['f', 'a', 'l', 's', 'e'] = true := rfl
  rw [booleanLiteral?.eq_def]
  split
  · next t h =>
    obtain ⟨u, rfl, rfl⟩ := exists_of_evenText_eq_append (t := t) htrue h
    show _ = ((if endsLiteral u then some (true, u) else none) : Option _).map evenRest
    rw [endsLiteral_evenText]
    split <;> rfl
  · next t h =>
    obtain ⟨u, rfl, rfl⟩ := exists_of_evenText_eq_append (t := t) hfalse h
    show _ = ((if endsLiteral u then some (false, u) else none) : Option _).map evenRest
    rw [endsLiteral_evenText]
    split <;> rfl
  · next hnottrue hnotfalse =>
    rw [booleanLiteral?.eq_def]
    split
    · exact absurd rfl (hnottrue _)
    · exact absurd rfl (hnotfalse _)
    · rfl

/-- A param that is no call is read the same from an even text. -/
theorem simpleParam?_evenText (s : List Char) :
    simpleParam? (evenText none s) = (simpleParam? s).map evenRest := by
  rw [simpleParam?, simpleParam?, stringLiteral?_evenText, numberLiteral?_evenText,
    booleanLiteral?_evenText, isWordClass_isPathCharacter.word?_evenText]
  cases stringLiteral? s with
  | some read => rfl
  | none =>
    cases numberLiteral? s with
    | some read => rfl
    | none =>
      cases booleanLiteral? s with
      | some read => rfl
      | none => cases word? isPathCharacter s <;> rfl

/-! ## block params -/

theorem cut?_bar_evenText (quote : Option Char) (s : List Char) :
    cut? ['|'] (evenText quote s) = (cut? ['|'] s).map fun read =>
      (evenText quote read.1, evenText ((read.1 ++ ['|']).foldl quoteBehind quote) read.2) := by
  induction s generalizing quote with
  | nil => rfl
  | cons c s ih =>
    by_cases hc : c = '|'
    · subst hc
      simp [cut?, dropMark?, evenText, evenCharacter, isBlank]
    · have hbar := evenCharacter_ne quote rfl hc
      simp [cut?, dropMark?, evenText, Ne.symm hc, Ne.symm hbar, ih, Function.comp_def]

/-- The characters between the bars of block params. -/
def isBetweenBars (c : Char) : Bool := isKeyCharacter c || isBlank c

theorem isBetweenBars_eq_of_isLike {c d : Char} (h : IsLike c d) :
    isBetweenBars c = isBetweenBars d := by
  rw [isBetweenBars, isBetweenBars, isWordClass_isKeyCharacter.eq_of_isLike h, h.isBlank_eq]

theorem quoteBehind_of_isBetweenBars {c : Char} (h : isBetweenBars c = true) :
    quoteBehind none c = none := by
  rcases Bool.or_eq_true_iff.1 h with hkey | hblank
  · exact (isWordClass_isKeyCharacter c hkey).2
  · rcases eq_of_isBlank hblank with rfl | rfl | rfl | rfl <;> rfl

theorem foldl_quoteBehind {names : List Char} (h : ∀ c ∈ names, isBetweenBars c = true) :
    names.foldl quoteBehind none = none := by
  induction names with
  | nil => rfl
  | cons c names ih =>
    rw [List.forall_mem_cons] at h
    rw [List.foldl_cons, quoteBehind_of_isBetweenBars h.1, ih h.2]

theorem all_isBetweenBars_evenText (quote : Option Char) (names : List Char) :
    (evenText quote names).all isBetweenBars = names.all isBetweenBars := by
  induction names generalizing quote with
  | nil => rfl
  | cons c names ih =>
    rw [evenText, List.all_cons, List.all_cons, ih,
      isBetweenBars_eq_of_isLike (isLike_evenCharacter quote c)]

/-- The names are the same, however they are separated. -/
theorem blankSeparated_evenText {names : List Char} (h : ∀ c ∈ names, isBetweenBars c = true) :
    blankSeparated (evenText none names) = blankSeparated names := by
  induction names with
  | nil => rfl
  | cons c names ih =>
    rw [List.forall_mem_cons] at h
    have ih := ih h.2
    rw [evenText, quoteBehind_of_isBetweenBars h.1, blankSeparated.eq_def,
      blankSeparated.eq_def (c :: names)]
    simp only [isBlank_evenCharacter, ih]
    cases hblank : isBlank c with
    | true => rfl
    | false =>
      have hc : evenCharacter none c = c := by simp [evenCharacter, hblank]
      rw [hc]
      cases names with
      | nil => rfl
      | cons d names =>
        cases blankSeparated (d :: names) with
        | nil => rfl
        | cons piece pieces => simp only [evenText, isBlank_evenCharacter]

/-- Names are read up to the closing bar, if they are nothing but names. -/
theorem names_evenText (inside : List Char) :
    blockParams? ('a' :: 's' :: ' ' :: '|' :: evenText none inside) =
      (blockParams? ('a' :: 's' :: ' ' :: '|' :: inside)).map evenRest := by
  have hskip : ∀ s, skipBlanks? (' ' :: '|' :: s) = some ('|' :: s) := fun _ => rfl
  simp only [blockParams?, hskip, cut?_bar_evenText]
  cases cut? ['|'] inside with
  | none => rfl
  | some read =>
    obtain ⟨names, rest⟩ := read
    simp only [Option.map_some]
    have hall : ((evenText none names).all fun c => isKeyCharacter c || isBlank c) =
        names.all fun c => isKeyCharacter c || isBlank c := all_isBetweenBars_evenText none names
    rw [hall]
    cases hnames : names.all fun c => isKeyCharacter c || isBlank c with
    | false => simp
    | true =>
      have hnames' : ∀ c ∈ names, isBetweenBars c = true := List.all_eq_true.1 hnames
      rw [blankSeparated_evenText hnames', List.foldl_append, foldl_quoteBehind hnames']
      split <;> rfl

theorem blockParams?_evenText (s : List Char) :
    blockParams? (evenText none s) = (blockParams? s).map evenRest := by
  have has : isPlainWord ['a', 's'] = true := rfl
  rw [blockParams?.eq_def]
  split
  · next t h =>
    obtain ⟨u, rfl, rfl⟩ := exists_of_evenText_eq_append (t := t) has h
    rw [skipBlanks?_evenText, List.cons_append, List.cons_append, List.nil_append, blockParams?]
    cases hskip : skipBlanks? u with
    | none => rfl
    | some v =>
      cases v with
      | nil => rfl
      | cons c inside =>
        by_cases hc : c = '|'
        · subst hc
          exact names_evenText inside
        · have hbar := evenCharacter_ne none rfl hc
          simp [evenText, hc, hbar]
  · next hnone =>
    rw [blockParams?.eq_def]
    split
    · exact absurd rfl (hnone _)
    · rfl

/-! ## calls -/

/-- A reader that reads the same from an even text. -/
def ReadsEven {α : Type} (read : List Char → Outcome α) : Prop :=
  ∀ s, read (evenText none s) = (read s).even

section Calls

variable {param : List Char → Outcome Param} (hparam : ReadsEven param)

include hparam

theorem hashPair?_evenText (s : List Char) :
    hashPair? param (evenText none s) = (hashPair? param s).map evenRest := by
  rw [hashPair?, hashPair?, isWordClass_isKeyCharacter.word?_evenText]
  cases word? isKeyCharacter s with
  | none => rfl
  | some read =>
    obtain ⟨key, rest⟩ := read
    simp only [Option.map_some, evenRest, skipBlanks_evenText]
    cases skipBlanks rest with
    | nil => rfl
    | cons c after =>
      by_cases hc : c = '='
      · subst hc
        have hmark : evenText none ('=' :: after) = '=' :: evenText none after := rfl
        simp only [hmark, skipBlanks_evenText]
        rw [hparam]
        cases param (skipBlanks after) <;> rfl
      · have hmark := evenCharacter_ne none rfl hc
        simp [evenText, hc, hmark]

/-- The arguments of a call are read the same, by induction on the bound of their number. -/
theorem readArguments_evenText (fuel : Nat) (call : Call) :
    ReadsEven (readArguments param fuel call) := by
  induction fuel generalizing call with
  | zero => exact fun s => rfl
  | succ fuel ih =>
    intro s
    rw [readArguments, readArguments, skipBlanks?_evenText]
    cases skipBlanks? s with
    | none => rfl
    | some after =>
      simp only [Option.map_some, blockParams?_evenText, Option.isSome_map,
        hashPair?_evenText hparam]
      split
      · rfl
      · cases hashPair? param after with
        | some read => exact ih _ _
        | none =>
          simp only [Option.map_none]
          rw [hparam]
          cases param after with
          | noMatch | positionalAfterHash => rfl
          | ok value rest =>
            simp only [Outcome.even]
            split
            · exact ih _ _
            · rfl

theorem readCall_evenText : ReadsEven (readCall param) := by
  intro s
  rw [readCall, readCall, hparam]
  cases param s with
  | noMatch | positionalAfterHash => rfl
  | ok callee rest =>
    have harguments : ∀ call,
        readArguments param (evenText none rest).length call (evenText none rest) =
          (readArguments param rest.length call rest).even := by
      intro call
      rw [length_evenText]
      exact readArguments_evenText hparam _ _ rest
    cases callee with
    | call => rfl
    | id | string | number | boolean => exact harguments _

end Calls

/-- A param is read the same, by induction on the bound of the depth of its calls. -/
theorem readParam_evenText (depth : Nat) : ReadsEven (readParam depth) := by
  induction depth with
  | zero => exact fun s => rfl
  | succ depth ih =>
    intro s
    rw [readParam.eq_def]
    split
    · next h => cases h
    · next hdepth h =>
      cases hdepth
      obtain ⟨inside, rfl, rfl⟩ := exists_of_evenText_eq_cons rfl h
      have hinside : evenText (quoteBehind none '(') inside = evenText none inside := rfl
      rw [readParam, hinside, skipBlanks_evenText, readCall_evenText ih]
      cases readCall (readParam depth) (skipBlanks inside) with
      | noMatch | positionalAfterHash => rfl
      | ok call rest =>
        simp only [Outcome.even, skipBlanks_evenText]
        cases skipBlanks rest with
        | nil => rfl
        | cons c after =>
          by_cases hc : c = ')'
          · subst hc
            rfl
          · have hmark := evenCharacter_ne none rfl hc
            simp [evenText, hc, hmark]
    · next hparen =>
      have hnone : ∀ inside, s = '(' :: inside → False := by
        rintro inside rfl
        exact hparen _ rfl
      rw [simpleParam?_evenText, readParam]
      · cases simpleParam? s <;> rfl
      · exact hnone

/-! ## expressions -/

/-- A fault with the text it quotes made even. -/
def ExpressionFault.even : ExpressionFault → ExpressionFault
  | .unexpected rest => .unexpected (String.ofList (evenText none rest.toList))
  | fault => fault

/-- An even text holds the same expression, or has the same fault. -/
theorem readExpression_evenText (s : List Char) :
    readExpression (evenText none s) = (readExpression s).mapError ExpressionFault.even := by
  rw [readExpression, readExpression, length_evenText, readCall_evenText (readParam_evenText _)]
  cases readCall (readParam (s.length + 1)) s with
  | noMatch | positionalAfterHash => rfl
  | ok call rest =>
    have hparams : ((skipBlanks? (evenText none rest)).bind blockParams?).getD
        ([], evenText none rest) =
          evenRest (((skipBlanks? rest).bind blockParams?).getD ([], rest)) := by
      rw [skipBlanks?_evenText]
      cases skipBlanks? rest with
      | none => rfl
      | some after =>
        simp only [Option.map_some, Option.bind_some, blockParams?_evenText]
        cases blockParams? after <;> rfl
    simp only [Outcome.even, hparams, evenRest, skipBlanks_evenText]
    cases skipBlanks (((skipBlanks? rest).bind blockParams?).getD ([], rest)).2 with
    | nil => rfl
    | cons c more =>
      simp only [evenText, Except.mapError, ExpressionFault.even, String.toList_ofList]

namespace ParseError

/-- A cause with the expressions it quotes made even. -/
def Cause.even : Cause → Cause
  | .invalidExpression expression fault =>
    .invalidExpression (String.ofList (evenText none expression.toList)) fault.even
  | .invalidAttribute name fault =>
    .invalidAttribute (String.ofList (evenText none name.toList)) fault
  | cause => cause

/-- A fault with the expressions it quotes made even; its range stays as it is. -/
def even (e : ParseError) : ParseError := { e with cause := e.cause.even }

end ParseError

/-- Two results that are the same, or faults that are even alike. -/
def SameResult {α : Type} (x y : Except ParseError α) : Prop :=
  x.mapError ParseError.even = y.mapError ParseError.even

/-- Contents that are even alike hold the same expression. -/
theorem sameResult_ofContent {content content' : String} (span : Span)
    (h : evenText none content.toList = evenText none content'.toList) :
    SameResult (Expression.ofContent content span) (Expression.ofContent content' span) := by
  have heven : ∀ content : String,
      (Expression.ofContent content span).mapError ParseError.even =
        (if (evenText none (trim content.toList)).isEmpty then .error .empty
          else readExpression (evenText none (trim content.toList))).mapError fun fault =>
            ⟨.invalidExpression (String.ofList (evenText none (trim content.toList))) fault,
              span⟩ := by
    intro content
    rw [Expression.ofContent, readExpression_evenText]
    cases htrim : trim content.toList with
    | nil => rfl
    | cons c s =>
      simp only [evenText, List.isEmpty_cons]
      cases readExpression (c :: s) with
      | ok e => rfl
      | error fault => simp [Except.mapError, ParseError.even, ParseError.Cause.even, evenText]
  rw [SameResult, heven, heven, ← trim_evenText, ← trim_evenText, h]

end LiveTemplate
