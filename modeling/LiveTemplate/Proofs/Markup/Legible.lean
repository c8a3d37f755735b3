import LiveTemplate.Proofs.Markup.Plain
import LiveTemplate.Proofs.Markup.Spelling

/-!
# LiveTemplate.Proofs.Markup.Legible

What is read can be written.

The names of the tags and attributes that are read are names, and a comment that is read does
not hold its own end.  This is so in templates as in HTML.
-/

namespace LiveTemplate

/-- A token whose names are names, and which is no comment that ends early. -/
def Token.IsLegible : Token → Prop
  | .startTag tag => IsTagName tag.name ∧ ∀ raw ∈ tag.attributes, IsAttributeName raw.name
  | .comment s _ => ¬commentEnd <:+: s.toList
  | .text .. | .endTag .. | .mustache _ => True

/-- What is cut off in front of the first end of a comment does not hold another. -/
theorem not_commentEnd_infix_of_cut? {s before after : List Char}
    (h : cut? commentEnd s = some (before, after)) : ¬commentEnd <:+: before := by
  induction s generalizing before with
  | nil => cases h
  | cons c cs ih =>
    rw [cut?] at h
    split at h
    · cases h
      simp [commentEnd]
    · next hmark =>
      obtain ⟨⟨b, a⟩, hcut, heq⟩ := Option.map_eq_some_iff.1 h
      cases heq
      intro hinfix
      rcases List.infix_cons_iff.1 hinfix with ⟨rest, hrest⟩ | hinfix
      · -- An end that begins with the first character would have been found there.
        have hwhole : c :: cs = commentEnd ++ (rest ++ (commentEnd ++ after)) := by
          rw [eq_append_of_cut? hcut, ← List.append_assoc commentEnd, hrest]
          simp
        rw [dropMark?_eq_some_iff.2 hwhole] at hmark
        cases hmark
      · exact ih hcut hinfix

section Readers

variable {mode : Mode} {start c d : Cursor}

/-- The characters that are taken satisfy the test. -/
theorem Cursor.forall_mem_takeWhile {p : Char → Bool} (c : Cursor) :
    ∀ x ∈ (c.takeWhile p).1, p x = true := List.all_eq_true.1 List.all_takeWhile

theorem isTagName_of_readTagName? {name : List Char} (h : readTagName? c = some (name, d)) :
    IsTagName (String.ofList name) := by
  rw [readTagName?] at h
  split at h
  · next hstands =>
    have hname : name = (c.takeWhile isTagCharacter).1 := by
      rw [Option.some.inj h]
    rw [IsTagName, String.toList_ofList, hname]
    refine ⟨?_, c.forall_mem_takeWhile⟩
    rw [Cursor.takeWhile]
    cases hrest : c.rest with
    | nil =>
      rw [hrest] at hstands
      cases hstands
    | cons x xs =>
      rw [hrest] at hstands
      have hx : isTagCharacter x = true := by
        have halphanum : x.isAlphanum = true := Bool.or_eq_true_iff.2 (.inl hstands)
        simp [isTagCharacter, isAlphanumeric_of_isAlphanum halphanum]
      rw [List.takeWhile_cons_of_pos hx]
      exact hstands
  · cases h

theorem isAttributeName_of_readAttribute {raw : RawAttribute}
    (h : readAttribute mode start c = .ok (raw, d)) : IsAttributeName raw.name := by
  have hall := c.forall_mem_takeWhile (p := isAttributeCharacter)
  rw [readAttribute.eq_def] at h
  split at h
  · cases h
  · next name e hne hname =>
    rw [hname] at hall
    have hlegible : IsAttributeName (String.ofList name) := by
      rw [IsAttributeName, String.toList_ofList]
      exact ⟨hne, hall⟩
    split at h
    · cases h
      exact hlegible
    · obtain ⟨⟨value, f⟩, -, h⟩ := exists_of_bind_eq_ok h
      cases h
      exact hlegible

/-- A part of a tag that is an attribute has a name. -/
theorem isAttributeName_of_readTagPart {part : TagPart}
    (h : readTagPart mode start c = .ok (part, d)) :
    ∀ raw, part = .attr raw → IsAttributeName raw.name := by
  rintro raw rfl
  rw [readTagPart.eq_def] at h
  split at h
  · cases h
  · split at h
    · obtain ⟨read, -, heq⟩ := exists_of_map_eq_ok h
      cases heq
    · obtain ⟨⟨a, e⟩, hread, heq⟩ := exists_of_map_eq_ok h
      cases heq
      exact isAttributeName_of_readAttribute hread

theorem isLegible_of_readStartTag {tag : StartTag} (h : readStartTag mode c = .ok (tag, d)) :
    (Token.startTag tag).IsLegible := by
  rw [readStartTag.eq_def] at h
  split at h
  · cases h
  · next name e hname =>
    obtain ⟨opened, -, hname⟩ := Option.bind_eq_some_iff.1 hname
    obtain ⟨⟨parts, closes, f⟩, hparts, h⟩ := exists_of_bind_eq_ok h
    cases h
    refine ⟨isTagName_of_readTagName? hname, fun raw hraw => ?_⟩
    obtain ⟨part, hpart, heq⟩ := List.mem_filterMap.1 hraw
    have hlegible := forall_mem_of_readTagParts (fun _ _ _ => isAttributeName_of_readTagPart)
      hparts part hpart
    cases part with
    | attr a =>
      cases heq
      exact hlegible _ rfl
    | modifier m => cases heq
    | slash => cases heq

theorem isLegible_of_readToken {token : Token} (h : readToken mode c = .ok (token, d)) :
    token.IsLegible := by
  cases readsToken_of_readToken h with
  | comment hopen hread =>
    obtain ⟨⟨before, after⟩, hcut, heq⟩ := Option.map_eq_some_iff.1 hread
    cases heq
    rw [Token.IsLegible, String.toList_ofList]
    exact not_commentEnd_infix_of_cut? hcut
  | startTag hread => exact isLegible_of_readStartTag hread
  | endTag | mustache | text => trivial

end Readers

/-- All tokens of a source are legible. -/
theorem isLegible_of_mem_ofSource {mode : Mode} {source : String} :
    ∀ token ∈ (Reading.ofSource mode source).tokens, token.IsLegible :=
  forall_mem_of_readTokens (fun _ _ _ => isLegible_of_readToken) _

end LiveTemplate
