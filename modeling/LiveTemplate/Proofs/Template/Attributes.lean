import Mathlib.Data.List.Forall2
import LiveTemplate.Template.Attribute

/-!
# LiveTemplate.Proofs.Template.Attributes

What attributes and modifiers hold.

What an attribute holds is said of the pieces that its value is written in
(`RawAttribute.Holds`): comments vanish, texts become one where nothing else stands between
them, and a mustache without quotes and with nothing beside it stays a mustache.  Conversion
finds this attribute, and fails if there is none (`Attribute.ofRaw_eq_ok_iff`).
-/

namespace LiveTemplate

/-! ## mustaches -/

/-- A mustache holds this call, and binds no block params. -/
def Mustache.Calls (m : Mustache) (call : Call) : Prop :=
  Expression.ofContent m.content m.span = .ok { call }

/-- A mustache shows this. -/
structure Mustache.Inserts (m : Mustache) (i : Insertion) : Prop where
  kind : m.kind = .escaped ∧ i.escaped = true ∨ m.kind = .unescaped ∧ i.escaped = false
  calls : m.Calls i.call
  span_eq : i.span = m.span

/-- A mustache between attributes is a modifier with this call. -/
structure Mustache.Modifies (m : Mustache) (call : Call) : Prop where
  kind : m.kind = .escaped
  calls : m.Calls call

section Mustache

variable {m : Mustache} {call : Call} {i : Insertion}

theorem Mustache.call_eq_ok_iff : m.call = .ok call ↔ m.Calls call := by
  rw [Mustache.call, Calls]
  cases Expression.ofContent m.content m.span with
  | error e => exact ⟨fun h => (by cases h), fun h => (by cases h)⟩
  | ok e =>
    obtain ⟨call', blockParams⟩ := e
    cases blockParams with
    | nil => exact ⟨fun h => (by cases h; rfl), fun h => (by cases h; rfl)⟩
    | cons name names => exact ⟨fun h => (by cases h), fun h => (by cases h)⟩

theorem Mustache.insertion_eq_ok_iff (hkind : m.kind = .escaped ∨ m.kind = .unescaped) :
    m.insertion = .ok i ↔ m.Inserts i := by
  have hescaped : (m.kind == .escaped) = i.escaped ↔
      m.kind = .escaped ∧ i.escaped = true ∨ m.kind = .unescaped ∧ i.escaped = false := by
    rcases hkind with hkind | hkind <;> cases i.escaped <;> simp [hkind]
  rw [Mustache.insertion]
  constructor
  · intro h
    obtain ⟨call, hcall, h⟩ := exists_of_bind_eq_ok h
    cases h
    exact ⟨hescaped.1 rfl, call_eq_ok_iff.1 hcall, rfl⟩
  · rintro ⟨hi, hcalls, hspan⟩
    rw [call_eq_ok_iff.2 hcalls, ← hspan]
    show Except.ok (Insertion.mk i.call (m.kind == .escaped) i.span) = .ok i
    rw [hescaped.2 hi]

theorem Mustache.modifier_eq_ok_iff : m.modifier = .ok call ↔ m.Modifies call := by
  rw [Mustache.modifier]
  split
  · next hkind =>
    rw [call_eq_ok_iff]
    exact ⟨fun h => ⟨hkind, h⟩, fun h => h.calls⟩
  · next hkind => exact ⟨fun h => (by cases h), fun h => absurd h.kind hkind⟩

theorem Mustache.Inserts.kind_eq (h : m.Inserts i) : m.kind = .escaped ∨ m.kind = .unescaped :=
  h.kind.imp And.left And.left

/-- What shows something is no comment, and opens or closes nothing. -/
theorem Mustache.Inserts.kind_ne (h : m.Inserts i) :
    m.kind ≠ .comment ∧ m.kind ≠ .opening ∧ m.kind ≠ .otherwise ∧ m.kind ≠ .closing := by
  rcases h.kind_eq with hkind | hkind <;> simp [hkind]

theorem Mustache.Inserts.unique {i' : Insertion} (h : m.Inserts i) (h' : m.Inserts i') :
    i = i' := by
  have hi := (insertion_eq_ok_iff h.kind_eq).2 h
  exact Except.ok.inj (hi.symm.trans ((insertion_eq_ok_iff h.kind_eq).2 h'))

end Mustache

/-! ## values -/

/-- What a piece of a value adds to its parts. -/
inductive Chunk.Adds : Chunk → List AttributePart → Prop where
  | text (s : String) : Adds (.text s) [.text s]
  | comment {m : Mustache} (hkind : m.kind = .comment) : Adds (.mustache m) []
  | insertion {m : Mustache} {i : Insertion} (h : m.Inserts i) : Adds (.mustache m) [.insertion i]

/-- Parts, and the same parts with one text for each run of texts. -/
inductive Joined : List AttributePart → List AttributePart → Prop where
  | nil : Joined [] []
  | insertion (i : Insertion) {parts parts' : List AttributePart} (h : Joined parts parts') :
    Joined (.insertion i :: parts) (.insertion i :: parts')
  | texts {run : List String} (hne : run ≠ []) {parts parts' : List AttributePart}
    (hend : ∀ s, parts.head? ≠ some (.text s)) (h : Joined parts parts') :
    Joined (run.map .text ++ parts) (.text (String.join run) :: parts')

/-- What the parts of a value make of it, between quotes or without. -/
inductive AttributeValue.HasParts (quoted : Bool) : List AttributePart → AttributeValue → Prop where
  | empty : HasParts quoted [] (.static "")
  | static (s : String) : HasParts quoted [.text s] (.static s)
  | bare (hquoted : quoted = false) (i : Insertion) : HasParts quoted [.insertion i] (.bare i)
  | quoted (hquoted : quoted = true) (i : Insertion) :
    HasParts quoted [.insertion i] (.joined [.insertion i])
  | joined {parts : List AttributePart} (hmany : 2 ≤ parts.length) :
    HasParts quoted parts (.joined parts)

/-- What the pieces of a value make of it, between quotes or without. -/
def AttributeValue.HasChunks (quoted : Bool) (chunks : List Chunk) (value : AttributeValue) :
    Prop :=
  ∃ pieces parts, List.Forall₂ Chunk.Adds chunks pieces ∧ Joined pieces.flatten parts ∧
    value.HasParts quoted parts

/-- What is written holds this value. -/
inductive RawValue.Holds : RawValue → AttributeValue → Prop where
  | empty : Holds .empty (.static "")
  | quoted {chunks : List Chunk} {value : AttributeValue} (h : value.HasChunks true chunks) :
    Holds (.quoted chunks) value
  | unquoted {chunks : List Chunk} {value : AttributeValue} (h : value.HasChunks false chunks) :
    Holds (.unquoted chunks) value

/-- What is written is this attribute. -/
structure RawAttribute.Holds (raw : RawAttribute) (a : Attribute) : Prop where
  name_eq : a.name = raw.name
  value : raw.value.Holds a.value
  span_eq : a.span = raw.span

/-! ## conversion -/

section Conversion

variable {parts parts' : List AttributePart}

theorem joined_nil_iff : Joined [] parts ↔ parts = [] := by
  constructor
  · intro h
    generalize hparts : ([] : List AttributePart) = all at h
    cases h with
    | nil => rfl
    | insertion => cases hparts
    | @texts run hne =>
      obtain ⟨first, run, rfl⟩ := List.exists_cons_of_ne_nil hne
      cases hparts
  · rintro rfl
    exact .nil

/-- A text in front goes on with the text that comes first, if one does. -/
theorem joined_text_cons_iff {s : String} :
    Joined (.text s :: parts) parts' ↔
      ∃ joined, Joined parts joined ∧ parts' = AttributePart.consText s joined := by
  constructor
  · intro h
    generalize hparts : AttributePart.text s :: parts = all at h
    cases h with
    | nil => cases hparts
    | insertion => cases hparts
    | @texts run hne rest rest' hend h =>
      cases run with
      | nil => exact absurd rfl hne
      | cons first run =>
        cases hparts
        cases run with
        | nil =>
          refine ⟨rest', h, ?_⟩
          cases h with
          | nil => simp [AttributePart.consText]
          | insertion i h => simp [AttributePart.consText]
          | @texts run hne _ _ _ _ =>
            obtain ⟨first, run, rfl⟩ := List.exists_cons_of_ne_nil hne
            exact absurd rfl (hend first)
        | cons second run =>
          refine ⟨_, .texts (List.cons_ne_nil second run) hend h, ?_⟩
          rw [AttributePart.consText, String.join_cons]
  · rintro ⟨joined, h, rfl⟩
    have hsingle : ∀ {rest rest'}, (∀ t, List.head? rest ≠ some (AttributePart.text t)) →
        Joined rest rest' → Joined (.text s :: rest) (.text s :: rest') := by
      intro rest rest' hend h
      have hone := Joined.texts (List.cons_ne_nil s []) hend h
      rwa [show String.join [s] = s by simp] at hone
    cases h with
    | nil => exact hsingle (by simp) .nil
    | insertion i h => exact hsingle (by simp) (.insertion i h)
    | @texts run hne _ _ hend h =>
      rw [AttributePart.consText, ← String.join_cons]
      exact .texts (List.cons_ne_nil s run) hend h

theorem joined_insertion_cons_iff {i : Insertion} :
    Joined (.insertion i :: parts) parts' ↔
      ∃ joined, Joined parts joined ∧ parts' = .insertion i :: joined := by
  constructor
  · intro h
    generalize hparts : AttributePart.insertion i :: parts = all at h
    cases h with
    | nil => cases hparts
    | insertion _ h =>
      cases hparts
      exact ⟨_, h, rfl⟩
    | @texts run hne =>
      obtain ⟨first, run, rfl⟩ := List.exists_cons_of_ne_nil hne
      cases hparts
  · rintro ⟨joined, h, rfl⟩
    exact .insertion i h

/-- Mustaches in a value are comments, or they show something. -/
theorem AttributePart.cases_of_ofChunks_mustache {name : String} {m : Mustache}
    {chunks : List Chunk} (h : ofChunks name (.mustache m :: chunks) = .ok parts) :
    m.kind = .comment ∧ ofChunks name chunks = .ok parts ∨
      ∃ i joined, m.Inserts i ∧ ofChunks name chunks = .ok joined ∧
        parts = .insertion i :: joined := by
  have hinserts : m.kind = .escaped ∨ m.kind = .unescaped →
      (do
        let i ← m.insertion
        let joined ← ofChunks name chunks
        .ok (.insertion i :: joined)) = Except.ok parts →
      ∃ i joined, m.Inserts i ∧ ofChunks name chunks = .ok joined ∧
        parts = .insertion i :: joined := by
    intro hkind h
    obtain ⟨i, hi, h⟩ := exists_of_bind_eq_ok h
    obtain ⟨joined, hjoined, h⟩ := exists_of_bind_eq_ok h
    exact ⟨i, joined, (Mustache.insertion_eq_ok_iff hkind).1 hi, hjoined, (Except.ok.inj h).symm⟩
  rw [ofChunks] at h
  split at h
  · next hkind => exact .inl ⟨hkind, h⟩
  · next hkind => exact .inr (hinserts (.inl hkind) h)
  · next hkind => exact .inr (hinserts (.inr hkind) h)
  all_goals cases h

theorem AttributePart.ofChunks_insertion {name : String} {m : Mustache} {i : Insertion}
    {chunks : List Chunk} (hi : m.Inserts i) (h : ofChunks name chunks = .ok parts) :
    ofChunks name (.mustache m :: chunks) = .ok (.insertion i :: parts) := by
  have hinsertion := (Mustache.insertion_eq_ok_iff hi.kind_eq).2 hi
  rcases hi.kind with ⟨hkind, -⟩ | ⟨hkind, -⟩ <;>
    simp only [ofChunks, hkind, hinsertion, h] <;> rfl

/-- The parts of a value are those that its pieces add, joined. -/
theorem AttributePart.ofChunks_eq_ok_iff {name : String} {chunks : List Chunk} :
    ofChunks name chunks = .ok parts ↔
      ∃ pieces, List.Forall₂ Chunk.Adds chunks pieces ∧ Joined pieces.flatten parts := by
  constructor
  · intro h
    induction chunks generalizing parts with
    | nil =>
      cases h
      exact ⟨[], .nil, .nil⟩
    | cons chunk chunks ih =>
      cases chunk with
      | text s =>
        obtain ⟨joined, hrest, h⟩ := exists_of_bind_eq_ok h
        obtain ⟨pieces, hpieces, hjoined⟩ := ih hrest
        cases h
        exact ⟨_, .cons (.text s) hpieces, joined_text_cons_iff.2 ⟨joined, hjoined, rfl⟩⟩
      | mustache m =>
        rcases cases_of_ofChunks_mustache h with ⟨hkind, hrest⟩ | ⟨i, joined, hi, hrest, rfl⟩
        · obtain ⟨pieces, hpieces, hjoined⟩ := ih hrest
          exact ⟨_, .cons (.comment hkind) hpieces, hjoined⟩
        · obtain ⟨pieces, hpieces, hjoined⟩ := ih hrest
          exact ⟨_, .cons (.insertion hi) hpieces, .insertion i hjoined⟩
  · rintro ⟨pieces, hpieces, hjoined⟩
    induction hpieces generalizing parts with
    | nil =>
      rw [joined_nil_iff.1 hjoined]
      rfl
    | cons hadds hpieces ih =>
      cases hadds with
      | text s =>
        obtain ⟨joined, hrest, rfl⟩ := joined_text_cons_iff.1 hjoined
        rw [ofChunks, ih hrest]
        rfl
      | comment hkind =>
        simp only [ofChunks, hkind]
        exact ih hjoined
      | insertion hi =>
        obtain ⟨joined, hrest, rfl⟩ := joined_insertion_cons_iff.1 hjoined
        exact ofChunks_insertion hi (ih hrest)

theorem AttributeValue.ofParts_of_two_le (quoted : Bool) (hmany : 2 ≤ parts.length) :
    ofParts quoted parts = .joined parts := by
  match parts with
  | .text _ :: _ :: _ => rfl
  | .insertion _ :: _ :: _ => rfl

/-- The value of parts is determined by them. -/
theorem AttributeValue.ofParts_eq_iff {quoted : Bool} {value : AttributeValue} :
    ofParts quoted parts = value ↔ value.HasParts quoted parts := by
  constructor
  · rintro rfl
    match parts with
    | [] => exact .empty
    | [.text s] => exact .static s
    | [.insertion i] =>
      cases quoted with
      | false => exact .bare rfl i
      | true => exact .quoted rfl i
    | first :: second :: rest =>
      have hmany : 2 ≤ (first :: second :: rest).length := Nat.le_add_left 2 _
      rw [ofParts_of_two_le quoted hmany]
      exact .joined hmany
  · intro h
    cases h with
    | empty => rfl
    | static s => rfl
    | bare hquoted i =>
      rw [hquoted]
      rfl
    | quoted hquoted i =>
      rw [hquoted]
      rfl
    | joined hmany => exact ofParts_of_two_le quoted hmany

/-- An attribute is converted to what it holds. -/
theorem Attribute.ofRaw_eq_ok_iff {raw : RawAttribute} {a : Attribute} :
    Attribute.ofRaw raw = .ok a ↔ raw.Holds a := by
  have hchunks : ∀ value : AttributeValue, raw.value.Holds value ↔
      value.HasChunks raw.value.isQuoted raw.value.chunks := by
    intro value
    cases raw.value with
    | empty =>
      constructor
      · rintro ⟨⟩
        exact ⟨[], [], .nil, .nil, .empty⟩
      · rintro ⟨pieces, parts, hpieces, hjoined, hparts⟩
        cases hpieces
        obtain rfl := joined_nil_iff.1 hjoined
        cases hparts with
        | empty => exact .empty
        | joined hmany => cases hmany
    | quoted chunks => exact ⟨fun h => (by cases h; assumption), .quoted⟩
    | unquoted chunks => exact ⟨fun h => (by cases h; assumption), .unquoted⟩
  rw [ofRaw]
  constructor
  · intro h
    obtain ⟨parts, hparts, h⟩ := exists_of_bind_eq_ok h
    obtain ⟨pieces, hpieces, hjoined⟩ := AttributePart.ofChunks_eq_ok_iff.1 hparts
    cases h
    exact ⟨rfl, (hchunks _).2 ⟨pieces, parts, hpieces, hjoined,
      AttributeValue.ofParts_eq_iff.1 rfl⟩, rfl⟩
  · obtain ⟨name, value, span⟩ := a
    rintro ⟨rfl, (hvalue : raw.value.Holds value), rfl⟩
    obtain ⟨pieces, parts, hpieces, hjoined, hparts⟩ := (hchunks _).1 hvalue
    rw [AttributePart.ofChunks_eq_ok_iff.2 ⟨pieces, hpieces, hjoined⟩,
      ← AttributeValue.ofParts_eq_iff.2 hparts]
    rfl

end Conversion

end LiveTemplate
