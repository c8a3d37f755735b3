import LiveTemplate.Proofs.Expr.Words

/-!
# LiveTemplate.Proofs.Expr.Reading

Reading written calls and block params.

Alternatives are tried in order, so it is shown of each one that comes before the right one that
it does not match: a word is taken neither for block params nor for the key of a pair, because
of what may follow it (`Follows`).  What reads a param is a function that calls are read with
(`WrittenParam.ReadBy`).  The calls inside a call are shorter than it is, so the bound on their
depth is never reached (`WrittenCall.readCall_readParam`).
-/

namespace LiveTemplate

/-! ## what follows a param -/

/-- What may stand behind a param: the next character belongs to no path, and behind blanks there
is neither a bar nor an equals sign. -/
structure Follows (r : List Char) : Prop where
  ends : endsLiteral r = true
  bar : (skipBlanks r).head? ≠ some '|'
  equals : (skipBlanks r).head? ≠ some '='

/-- Whether a call ends in front of a text, however it is read. -/
def EndsCall (r : List Char) : Prop :=
  ∀ (param : List Char → Outcome Param) (fuel : Nat) (call : Call),
    readArguments param fuel call r = .ok call r

/-- Whether a way to read params reads this one, in front of all that no path begins with. -/
def WrittenParam.ReadBy (param : List Char → Outcome Param) (p : WrittenParam) : Prop :=
  ∀ r, endsLiteral r = true → param (p.text ++ r) = .ok p.param r

theorem skipBlanks_cons {c : Char} (h : isBlank c = false) (s : List Char) :
    skipBlanks (c :: s) = c :: s := by
  simp [skipBlanks, h]

theorem skipBlanks?_space {c : Char} (h : isBlank c = false) (s : List Char) :
    skipBlanks? (' ' :: c :: s) = some (c :: s) := by
  have hskip : (c :: s).dropWhile isBlank = c :: s := skipBlanks_cons h s
  rw [skipBlanks?, hskip]
  rfl

theorem skipBlanks_of_skipBlanks? {s t : List Char} (h : skipBlanks? s = some t) :
    skipBlanks s = t := by
  unfold skipBlanks? at h
  split at h
  · split at h
    · next hblank =>
      cases h
      simp [skipBlanks, hblank]
    · cases h
  · cases h

theorem not_isBlank_of_isPathCharacter {c : Char} (h : isPathCharacter c = true) :
    isBlank c = false := by
  rw [← Bool.not_eq_true]
  exact fun hblank => ne_of_isPathCharacter h (isPathCharacter_of_isBlank hblank) rfl

namespace Follows

theorem nil : Follows [] := ⟨rfl, by simp [skipBlanks], by simp [skipBlanks]⟩

theorem parenthesis (s : List Char) : Follows (')' :: s) := by
  have hskip : skipBlanks (')' :: s) = ')' :: s := skipBlanks_cons rfl s
  exact ⟨rfl, by simp [hskip], by simp [hskip]⟩

/-- One space in front of anything but a bar or an equals sign. -/
theorem space {c : Char} (hblank : isBlank c = false) (hbar : c ≠ '|') (hequals : c ≠ '=')
    (s : List Char) : Follows (' ' :: c :: s) := by
  have hskip : skipBlanks (' ' :: c :: s) = c :: s :=
    skipBlanks_of_skipBlanks? (skipBlanks?_space hblank s)
  exact ⟨rfl, by simp [hskip, hbar], by simp [hskip, hequals]⟩

end Follows

theorem EndsCall.nil : EndsCall [] := by
  intro param fuel call
  cases fuel <;> rfl

theorem EndsCall.parenthesis (s : List Char) : EndsCall (')' :: s) := by
  intro param fuel call
  cases fuel <;> rfl

/-! ## alternatives that do not match -/

/-- No word begins block params, unless a bar follows it. -/
theorem blockParams?_word {w r : List Char} (hne : w ≠ [])
    (hw : ∀ c ∈ w, isPathCharacter c = true) (hends : endsLiteral r = true)
    (hbar : (skipBlanks r).head? ≠ some '|') : blockParams? (w ++ r) = none := by
  unfold blockParams?
  split
  · next s heq =>
    split
    · next inside hskip =>
      exfalso
      match w, hne, hw, heq with
      | [c], _, _, heq =>
        obtain ⟨-, rfl⟩ := List.cons.inj heq
        simp [endsLiteral, isPathCharacter, isAlphanumeric] at hends
      | [c, d], _, _, heq =>
        obtain ⟨-, -, rfl⟩ : c = 'a' ∧ d = 's' ∧ r = s := by simpa using heq
        rw [skipBlanks_of_skipBlanks? hskip] at hbar
        exact hbar rfl
      | c :: d :: e :: w, _, hw, heq =>
        obtain ⟨-, -, rfl⟩ : c = 'a' ∧ d = 's' ∧ e :: (w ++ r) = s := by simpa using heq
        have hblank := not_isBlank_of_isPathCharacter (hw e (by simp))
        simp [skipBlanks?, hblank] at hskip
    · rfl
  · rfl

/-- No word begins a pair, unless an equals sign follows it. -/
theorem hashPair?_word (param : List Char → Outcome Param) {w r : List Char}
    (hw : ∀ c ∈ w, isPathCharacter c = true) (hends : endsLiteral r = true)
    (hequals : (skipBlanks r).head? ≠ some '=') : hashPair? param (w ++ r) = none := by
  have hstop : ∀ x ∈ r.head?, isKeyCharacter x = false := by
    intro x hx
    rw [← Bool.not_eq_true]
    exact fun hkey => ne_of_isPathCharacter (isPathCharacter_of_isKeyCharacter hkey)
      (endsLiteral_iff.1 hends x hx) rfl
  have hrest : (skipBlanks ((w ++ r).dropWhile isKeyCharacter)).head? ≠ some '=' := by
    rw [List.dropWhile_append]
    cases hkey : w.dropWhile isKeyCharacter with
    | nil =>
      have hdrop := (takeWhile_append_eq (List.forall_mem_nil _) hstop).2
      rw [List.nil_append] at hdrop
      simpa [hdrop] using hequals
    | cons c s =>
      have hc : isPathCharacter c = true :=
        hw c ((List.dropWhile_sublist isKeyCharacter).mem (by simp [hkey]))
      have hne : c ≠ '=' := ne_of_isPathCharacter hc (by decide)
      simp [skipBlanks_cons (not_isBlank_of_isPathCharacter hc), hne]
  unfold hashPair?
  split
  · rfl
  · next key rest hword =>
    have hdrop : (w ++ r).dropWhile isKeyCharacter = rest := by
      unfold word? at hword
      split at hword
      · cases hword
      · exact (Prod.mk.inj (Option.some.inj hword)).2
    rw [hdrop] at hrest
    split
    · next heq =>
      rw [heq] at hrest
      exact absurd rfl hrest
    · rfl

namespace WrittenParam

/-- The first character of a param. -/
theorem exists_text_cons (p : WrittenParam) :
    ∃ c s, p.text = c :: s ∧ isBlank c = false ∧ c ≠ '|' ∧ c ≠ '=' := by
  cases p with
  | call c => exact ⟨'(', _, by rw [text]; rfl, rfl, by decide, by decide⟩
  | atom a =>
    rcases a.exists_text_eq with ⟨q, rfl⟩ | ⟨hne, hpath⟩
    · refine ⟨q.quote, q.content ++ [q.quote],
        by simp [text, WrittenAtom.text, QuotedWord.text], ?_⟩
      rcases q.isQuote with h | h <;> rw [h] <;> decide
    · obtain ⟨c, s, hs⟩ := List.exists_cons_of_ne_nil hne
      have hc := hpath c (by simp [hs])
      exact ⟨c, s, by rw [text, hs], not_isBlank_of_isPathCharacter hc,
        ne_of_isPathCharacter hc (by decide), ne_of_isPathCharacter hc (by decide)⟩

theorem blockParams?_text (p : WrittenParam) {r : List Char} (hr : Follows r) :
    blockParams? (p.text ++ r) = none := by
  cases p with
  | call c =>
    rw [text]
    rfl
  | atom a =>
    rw [text]
    rcases a.exists_text_eq with ⟨q, rfl⟩ | ⟨hne, hpath⟩
    · rw [WrittenAtom.text, QuotedWord.text]
      rcases q.isQuote with h | h <;> rw [h] <;> rfl
    · exact blockParams?_word hne hpath hr.ends hr.bar

theorem hashPair?_text (param : List Char → Outcome Param) (p : WrittenParam) {r : List Char}
    (hr : Follows r) : hashPair? param (p.text ++ r) = none := by
  cases p with
  | call c =>
    rw [text]
    rfl
  | atom a =>
    rw [text]
    rcases a.exists_text_eq with ⟨q, rfl⟩ | ⟨-, hpath⟩
    · rw [WrittenAtom.text, QuotedWord.text]
      rcases q.isQuote with h | h <;> rw [h] <;> rfl
    · exact hashPair?_word param hpath hr.ends hr.equals

end WrittenParam

theorem WrittenCall.skipBlanks_text (c : WrittenCall) (r : List Char) :
    skipBlanks (c.text ++ r) = c.text ++ r := by
  obtain ⟨callee, params, pairs⟩ := c
  obtain ⟨x, s, hs, hblank, -⟩ := (WrittenParam.atom callee).exists_text_cons
  rw [WrittenParam.text] at hs
  simp [WrittenCall.text, hs, skipBlanks_cons hblank]

/-! ## pairs and arguments -/

section Arguments

variable {param : List Char → Outcome Param} {r : List Char}

theorem KeyWord.exists_text_cons (k : KeyWord) :
    ∃ c s, k.text = c :: s ∧ isBlank c = false ∧ c ≠ '|' ∧ c ≠ '=' := by
  obtain ⟨c, s, hs⟩ := List.exists_cons_of_ne_nil k.ne_nil
  have hc := isPathCharacter_of_isKeyCharacter (k.isKeyCharacter c (by simp [hs]))
  exact ⟨c, s, hs, not_isBlank_of_isPathCharacter hc, ne_of_isPathCharacter hc (by decide),
    ne_of_isPathCharacter hc (by decide)⟩

theorem WrittenParam.skipBlanks_text (p : WrittenParam) (r : List Char) :
    skipBlanks (p.text ++ r) = p.text ++ r := by
  obtain ⟨c, s, hs, hblank, -⟩ := p.exists_text_cons
  rw [hs, List.cons_append, skipBlanks_cons hblank]

theorem hashPair?_append (key : KeyWord) {value : WrittenParam} (hvalue : value.ReadBy param)
    (hr : endsLiteral r = true) :
    hashPair? param (key.text ++ '=' :: (value.text ++ r)) = some ((key.name, value.param), r) := by
  have hword : word? isKeyCharacter (key.text ++ '=' :: (value.text ++ r)) =
      some (key.name, '=' :: (value.text ++ r)) :=
    word?_append key.ne_nil key.isKeyCharacter (by simp; decide)
  have hskip : skipBlanks ('=' :: (value.text ++ r)) = '=' :: (value.text ++ r) :=
    skipBlanks_cons rfl _
  simp [hashPair?, hword, hskip, value.skipBlanks_text, hvalue r hr]

/-- What a pair is written as begins no block params. -/
theorem blockParams?_pair (key : KeyWord) (s : List Char) :
    blockParams? (key.text ++ '=' :: s) = none := by
  have hskip : skipBlanks ('=' :: s) = '=' :: s := skipBlanks_cons rfl s
  exact blockParams?_word key.ne_nil
    (fun c hc => isPathCharacter_of_isKeyCharacter (key.isKeyCharacter c hc)) rfl (by simp [hskip])

theorem follows_hashText (hr : Follows r) (pairs : List (KeyWord × WrittenParam)) :
    Follows (hashText pairs ++ r) := by
  cases pairs with
  | nil => rwa [hashText]
  | cons pair pairs =>
    obtain ⟨c, s, hs, hblank, hbar, hequals⟩ := pair.1.exists_text_cons
    rw [hashText, hs]
    exact .space hblank hbar hequals _

theorem follows_paramsText (hr : Follows r) (params : List WrittenParam) :
    Follows (paramsText params ++ r) := by
  cases params with
  | nil => rwa [paramsText]
  | cons p params =>
    obtain ⟨c, s, hs, hblank, hbar, hequals⟩ := p.exists_text_cons
    rw [paramsText, hs]
    exact .space hblank hbar hequals _

theorem length_le_length_hashText (pairs : List (KeyWord × WrittenParam)) :
    pairs.length ≤ (hashText pairs).length := by
  induction pairs with
  | nil => simp
  | cons pair pairs ih =>
    rw [hashText]
    simp only [List.length_cons, List.length_append]
    omega

theorem length_le_length_paramsText (params : List WrittenParam) :
    params.length ≤ (paramsText params).length := by
  induction params with
  | nil => simp
  | cons p params ih =>
    rw [paramsText]
    simp only [List.length_cons, List.length_append]
    omega

/-- Pairs are read up to the end of the call. -/
theorem readArguments_hash (hr : Follows r) (hend : EndsCall r)
    {pairs : List (KeyWord × WrittenParam)} (hpairs : ∀ pair ∈ pairs, pair.2.ReadBy param)
    {fuel : Nat} (hfuel : pairs.length ≤ fuel) (call : Call) :
    readArguments param fuel call (hashText pairs ++ r) =
      .ok { call with hash := call.hash ++ writtenHash pairs } r := by
  induction pairs generalizing fuel call with
  | nil =>
    rw [hashText, List.nil_append, hend, writtenHash, List.append_nil]
    cases call
    rfl
  | cons pair pairs ih =>
    rw [List.forall_mem_cons] at hpairs
    obtain ⟨key, value⟩ := pair
    obtain ⟨fuel, rfl⟩ : ∃ n, fuel = n + 1 :=
      Nat.exists_eq_succ_of_ne_zero (by simp at hfuel; omega)
    have hends := (follows_hashText hr pairs).ends
    have hpair := hashPair?_append key hpairs.1 hends
    obtain ⟨c, s, hs, hblank, -⟩ := key.exists_text_cons
    have hskip : skipBlanks? (hashText ((key, value) :: pairs) ++ r) =
        some (key.text ++ '=' :: (value.text ++ (hashText pairs ++ r))) := by
      rw [hashText, hs]
      simpa using skipBlanks?_space hblank (s ++ '=' :: (value.text ++ (hashText pairs ++ r)))
    simp only [readArguments, hskip, blockParams?_pair, hpair, Option.isSome_none,
      Bool.false_eq_true, if_false]
    rw [ih hpairs.2 (by simpa using hfuel)]
    simp [writtenHash]

/-- Params are read up to the pairs, and these up to the end of the call. -/
theorem readArguments_append (hr : Follows r) (hend : EndsCall r)
    {pairs : List (KeyWord × WrittenParam)} (hpairs : ∀ pair ∈ pairs, pair.2.ReadBy param)
    {params : List WrittenParam} (hparams : ∀ p ∈ params, p.ReadBy param) {fuel : Nat}
    (hfuel : params.length + pairs.length ≤ fuel) {call : Call} (hcall : call.hash = []) :
    readArguments param fuel call (paramsText params ++ (hashText pairs ++ r)) =
      .ok { call with
        params := call.params ++ writtenParams params, hash := writtenHash pairs } r := by
  induction params generalizing fuel call with
  | nil =>
    rw [paramsText, List.nil_append,
      readArguments_hash hr hend hpairs (by simpa using hfuel), hcall]
    simp [writtenParams]
  | cons p params ih =>
    rw [List.forall_mem_cons] at hparams
    obtain ⟨fuel, rfl⟩ : ∃ n, fuel = n + 1 :=
      Nat.exists_eq_succ_of_ne_zero (by simp at hfuel; omega)
    have hfollows := follows_paramsText (follows_hashText hr pairs) params
    obtain ⟨c, s, hs, hblank, -⟩ := p.exists_text_cons
    have hskip : skipBlanks? (paramsText (p :: params) ++ (hashText pairs ++ r)) =
        some (p.text ++ (paramsText params ++ (hashText pairs ++ r))) := by
      rw [paramsText, hs]
      simpa using skipBlanks?_space hblank (s ++ (paramsText params ++ (hashText pairs ++ r)))
    have hempty : call.hash.isEmpty = true := by simp [hcall]
    simp only [readArguments, hskip, p.blockParams?_text hfollows, p.hashPair?_text param hfollows,
      hparams.1 _ hfollows.ends, Option.isSome_none, Bool.false_eq_true, if_false, hempty, if_true]
    have hfuel' : params.length + pairs.length ≤ fuel := by
      rw [List.length_cons] at hfuel
      omega
    have hcall' : ({ call with params := call.params ++ [p.param] } : Call).hash = [] := hcall
    rw [ih hparams.2 hfuel' hcall']
    simp [writtenParams]

/-- A call is read up to its end, if what reads params reads its callee and its arguments. -/
theorem readCall_append (hr : Follows r) (hend : EndsCall r) {callee : WrittenAtom}
    (hcallee : (WrittenParam.atom callee).ReadBy param) {params : List WrittenParam}
    (hparams : ∀ p ∈ params, p.ReadBy param) {pairs : List (KeyWord × WrittenParam)}
    (hpairs : ∀ pair ∈ pairs, pair.2.ReadBy param) :
    readCall param ((WrittenCall.mk callee params pairs).text ++ r) =
      .ok (WrittenCall.mk callee params pairs).call r := by
  have hfollows := follows_paramsText (follows_hashText hr pairs) params
  have hread := hcallee _ hfollows.ends
  have hfuel : params.length + pairs.length ≤
      (paramsText params ++ (hashText pairs ++ r)).length := by
    have hlength := length_le_length_paramsText params
    have hlength' := length_le_length_hashText pairs
    simp only [List.length_append]
    omega
  have harguments : ∀ call : Call, call.hash = [] →
      readArguments param (paramsText params ++ (hashText pairs ++ r)).length call
        (paramsText params ++ (hashText pairs ++ r)) =
      .ok { call with
        params := call.params ++ writtenParams params, hash := writtenHash pairs } r :=
    fun call hcall => readArguments_append hr hend hpairs hparams hfuel hcall
  rw [WrittenParam.text, WrittenParam.param] at hread
  rw [WrittenCall.text, List.append_assoc, List.append_assoc, readCall, hread, WrittenCall.call]
  cases callee with
  | path p => exact harguments _ rfl
  | string q => exact harguments _ rfl
  | number n => exact harguments _ rfl
  | boolean b => cases b <;> exact harguments _ rfl

end Arguments

/-! ## nesting -/

/-- A param that is no call is read at every depth. -/
theorem WrittenAtom.readBy_readParam (a : WrittenAtom) {depth : Nat} (h : 0 < depth) :
    (WrittenParam.atom a).ReadBy (readParam depth) := by
  intro r hr
  obtain ⟨depth, rfl⟩ := Nat.exists_eq_succ_of_ne_zero (Nat.ne_of_gt h)
  rw [WrittenParam.text, WrittenParam.param]
  unfold readParam
  split
  · next heq => cases heq
  · next depth' inside hdepth heq =>
    exfalso
    rcases a.exists_text_eq with ⟨q, rfl⟩ | ⟨hne, hpath⟩
    · rcases q.isQuote with hquote | hquote <;> simp [text, QuotedWord.text, hquote] at heq
    · obtain ⟨c, s, hs⟩ := List.exists_cons_of_ne_nil hne
      rw [hs, List.cons_append] at heq
      exact ne_of_isPathCharacter (hpath c (by simp [hs])) (by decide) (List.cons.inj heq).1
  · simp only [simpleParam?_append a hr]

theorem WrittenAtom.length_text_pos (a : WrittenAtom) : 0 < a.text.length := by
  obtain ⟨c, s, hs, -⟩ := (WrittenParam.atom a).exists_text_cons
  rw [WrittenParam.text] at hs
  simp [hs]

mutual

/-- Params are read with calls nested as deep as the text is long. -/
theorem WrittenParam.readBy_readParam : (p : WrittenParam) → {depth : Nat} →
    p.text.length ≤ depth → p.ReadBy (readParam depth)
  | .atom a, depth, h => by
    rw [WrittenParam.text] at h
    exact a.readBy_readParam (Nat.lt_of_lt_of_le a.length_text_pos h)
  | .call c, depth, h => by
    intro r _
    rw [WrittenParam.text] at h
    simp only [List.length_append, List.length_cons, List.length_nil] at h
    obtain ⟨depth, rfl⟩ : ∃ n, depth = n + 1 := Nat.exists_eq_succ_of_ne_zero (by omega)
    have hdepth : c.text.length ≤ depth := by omega
    have hread := c.readCall_readParam hdepth (.parenthesis r) (.parenthesis r)
    have hskip := c.skipBlanks_text (')' :: r)
    have hclose : skipBlanks (')' :: r) = ')' :: r := skipBlanks_cons rfl r
    have htext : (WrittenParam.call c).text ++ r = '(' :: (c.text ++ ')' :: r) := by
      rw [WrittenParam.text]
      simp
    simp only [htext, readParam, hskip, hread, hclose, WrittenParam.param]

theorem WrittenCall.readCall_readParam : (c : WrittenCall) → {depth : Nat} →
    c.text.length ≤ depth → {r : List Char} → Follows r → EndsCall r →
      readCall (readParam depth) (c.text ++ r) = .ok c.call r
  | .mk callee params pairs, depth, h, r, hr, hend => by
    rw [WrittenCall.text] at h
    simp only [List.length_append] at h
    have hpos := callee.length_text_pos
    exact readCall_append hr hend (callee.readBy_readParam (by omega))
      (readBy_of_mem_params params (by omega)) (readBy_of_mem_hash pairs (by omega))

theorem readBy_of_mem_params : (params : List WrittenParam) → {depth : Nat} →
    (paramsText params).length ≤ depth → ∀ p ∈ params, p.ReadBy (readParam depth)
  | [], _, _ => by simp
  | p :: params, depth, h => by
    rw [paramsText] at h
    simp only [List.length_append, List.length_cons] at h
    exact List.forall_mem_cons.2
      ⟨p.readBy_readParam (by omega), readBy_of_mem_params params (by omega)⟩

theorem readBy_of_mem_hash : (pairs : List (KeyWord × WrittenParam)) → {depth : Nat} →
    (hashText pairs).length ≤ depth → ∀ pair ∈ pairs, pair.2.ReadBy (readParam depth)
  | [], _, _ => by simp
  | (key, value) :: pairs, depth, h => by
    rw [hashText] at h
    simp only [List.length_append, List.length_cons] at h
    exact List.forall_mem_cons.2
      ⟨value.readBy_readParam (by omega), readBy_of_mem_hash pairs (by omega)⟩

end

/-! ## block params -/

theorem blankSeparated_append {w : List Char} (hne : w ≠ []) (hw : ∀ c ∈ w, isBlank c = false)
    (t : List Char) : blankSeparated (w ++ ' ' :: t) = w :: blankSeparated t := by
  have hspace : blankSeparated (' ' :: t) = blankSeparated t := by simp [blankSeparated, isBlank]
  induction w with
  | nil => exact absurd rfl hne
  | cons c w ih =>
    rw [List.forall_mem_cons] at hw
    rw [List.cons_append, blankSeparated.eq_def]
    cases w with
    | nil =>
      simp only [hw.1, Bool.false_eq_true, if_false, List.nil_append, hspace]
      cases blankSeparated t <;> rfl
    | cons d w =>
      have hd : isBlank d = false := hw.2 d List.mem_cons_self
      have ih := ih (by simp) hw.2
      rw [List.cons_append] at ih
      simp only [hw.1, hd, Bool.false_eq_true, if_false, List.cons_append, ih]

theorem blankSeparated_word {w : List Char} (hne : w ≠ []) (hw : ∀ c ∈ w, isBlank c = false) :
    blankSeparated w = [w] := by
  induction w with
  | nil => exact absurd rfl hne
  | cons c w ih =>
    rw [List.forall_mem_cons] at hw
    rw [blankSeparated.eq_def]
    cases w with
    | nil => simp [hw.1, blankSeparated]
    | cons d w =>
      have hd : isBlank d = false := hw.2 d List.mem_cons_self
      simp only [hw.1, hd, Bool.false_eq_true, if_false, ih (by simp) hw.2]

/-- Words with one space between them are told apart again. -/
theorem blankSeparated_intercalate {words : List (List Char)}
    (h : ∀ w ∈ words, w ≠ [] ∧ ∀ c ∈ w, isBlank c = false) :
    blankSeparated ([' '].intercalate words) = words := by
  induction words with
  | nil => rfl
  | cons w words ih =>
    rw [List.forall_mem_cons] at h
    cases words with
    | nil => simpa using blankSeparated_word h.1.1 h.1.2
    | cons w' words =>
      rw [List.intercalate_cons_cons, List.append_assoc, List.singleton_append,
        blankSeparated_append h.1.1 h.1.2, ih h.2]

theorem forall_mem_intercalate {P : Char → Prop} (hspace : P ' ') {words : List (List Char)}
    (h : ∀ w ∈ words, ∀ c ∈ w, P c) : ∀ c ∈ [' '].intercalate words, P c := by
  induction words with
  | nil => simp
  | cons w words ih =>
    rw [List.forall_mem_cons] at h
    cases words with
    | nil => simpa using h.1
    | cons w' words =>
      rw [List.intercalate_cons_cons]
      simp only [List.forall_mem_append, List.forall_mem_singleton]
      exact ⟨⟨h.1, hspace⟩, ih h.2⟩

/-- Between the bars there are key characters and spaces. -/
theorem KeyWord.forall_mem_intercalate (names : List KeyWord) :
    ∀ c ∈ [' '].intercalate (names.map text), LiveTemplate.isKeyCharacter c = true ∨ c = ' ' := by
  refine LiveTemplate.forall_mem_intercalate (.inr rfl) fun w hw c hc => .inl ?_
  obtain ⟨k, -, rfl⟩ := List.mem_map.1 hw
  exact k.isKeyCharacter c hc

/-- Block params are read behind the blank in front of them. -/
theorem exists_skipBlanks?_blockParamsText {names : List KeyWord} (hne : names ≠ [])
    (r : List Char) : ∃ t, skipBlanks? (blockParamsText names ++ r) = some t ∧
      blockParams? t = some (names.map KeyWord.name, r) := by
  obtain ⟨name, others, rfl⟩ := List.exists_cons_of_ne_nil hne
  let words := (name :: others).map KeyWord.text
  let inside := [' '].intercalate words
  have hwords : ∀ w ∈ words, w ≠ [] ∧ ∀ c ∈ w, isBlank c = false := by
    intro w hw
    obtain ⟨k, -, rfl⟩ := List.mem_map.1 hw
    exact ⟨k.ne_nil, fun c hc => not_isBlank_of_isPathCharacter
      (isPathCharacter_of_isKeyCharacter (k.isKeyCharacter c hc))⟩
  have hinside : ∀ c ∈ inside, isKeyCharacter c = true ∨ c = ' ' :=
    KeyWord.forall_mem_intercalate (name :: others)
  have hbar : '|' ∉ inside := fun h => by
    rcases hinside _ h with h | h <;> revert h <;> decide
  have hall : inside.all (fun c => isKeyCharacter c || isBlank c) = true := by
    rw [List.all_eq_true]
    intro c hc
    rcases hinside c hc with h | rfl
    · rw [h, Bool.true_or]
    · decide
  refine ⟨['a', 's', ' ', '|'] ++ inside ++ '|' :: r, ?_, ?_⟩
  · simp [blockParamsText, skipBlanks?, inside, words, isBlank]
  · have hcut := cut?_append hbar r
    have hpieces : blankSeparated inside = words := blankSeparated_intercalate hwords
    have hskip : skipBlanks? (' ' :: '|' :: (inside ++ '|' :: r)) =
        some ('|' :: (inside ++ '|' :: r)) :=
      skipBlanks?_space rfl _
    simp [blockParams?, hskip, hcut, hpieces, hall, words, KeyWord.name]

theorem follows_blockParamsText (names : List KeyWord) : Follows (blockParamsText names) := by
  cases names with
  | nil => exact .nil
  | cons => exact .space (by decide) (by decide) (by decide) _

/-- A call ends in front of block params. -/
theorem endsCall_blockParamsText (names : List KeyWord) : EndsCall (blockParamsText names) := by
  cases names with
  | nil => exact .nil
  | cons name others =>
    obtain ⟨t, hskip, hread⟩ :=
      exists_skipBlanks?_blockParamsText (List.cons_ne_nil name others) []
    rw [List.append_nil] at hskip
    intro param fuel call
    cases fuel with
    | zero => rfl
    | succ fuel => simp [readArguments, hskip, hread]

/-- Behind a call the block params are read, if there are any. -/
theorem blockParams_blockParamsText (names : List KeyWord) :
    ((skipBlanks? (blockParamsText names)).bind blockParams?).getD ([], blockParamsText names) =
      (names.map KeyWord.name, []) := by
  cases names with
  | nil => rfl
  | cons name others =>
    obtain ⟨t, hskip, hread⟩ :=
      exists_skipBlanks?_blockParamsText (List.cons_ne_nil name others) []
    rw [List.append_nil] at hskip
    simp [hskip, hread]

end LiveTemplate
