import LiveTemplate.Text.Cut

/-!
# LiveTemplate.Text.Cursor

Reading positions: what is left of a source, and the position where it begins.

Every reader of this library takes a cursor and returns a later one.  `Reaches`
says that the text between the two was read, no more and no less; `Passes` adds
that it was not empty, which is why the loops over a source end.
-/

namespace LiveTemplate

/-- What is left to read of a source, and the position where it begins. -/
structure Cursor where
  offset : Nat
  rest : List Char
deriving Repr

namespace Cursor

/-- The start of a source. -/
def ofSource (s : List Char) : Cursor := ⟨0, s⟩

/-- The position behind the last character. -/
def stop (c : Cursor) : Nat := c.offset + byteLength c.rest

/-- Moves past `taken`, leaving `rest`. -/
def past (c : Cursor) (taken rest : List Char) : Cursor := ⟨c.offset + byteLength taken, rest⟩

/-- The range from one cursor to a later one. -/
def spanTo (c d : Cursor) : Span := ⟨c.offset, d.offset⟩

/-- The range from a cursor to the end of the source. -/
def spanToStop (c : Cursor) : Span := ⟨c.offset, c.stop⟩

/-! ## moving -/

/-- Moves past the characters which satisfy `p`. -/
def skipWhile (p : Char → Bool) (c : Cursor) : Cursor :=
  c.past (c.rest.takeWhile p) (c.rest.dropWhile p)

/-- The characters up to the first which fails `p`, and the cursor there. -/
def takeWhile (p : Char → Bool) (c : Cursor) : List Char × Cursor :=
  (c.rest.takeWhile p, c.skipWhile p)

/-- The text up to the first boundary, and the cursor there. -/
def takeUntil (boundary : List Char → Bool) (c : Cursor) : List Char × Cursor :=
  let (before, after) := breakAt boundary c.rest
  (before, c.past before after)

/-- Moves past `mark` if it stands at the cursor. -/
def skip? (mark : List Char) (c : Cursor) : Option Cursor :=
  (dropMark? mark c.rest).map fun rest => c.past mark rest

/-- Reads up to the first occurrence of `mark` and moves past it. -/
def readTo? (mark : List Char) (c : Cursor) : Option (List Char × Cursor) :=
  (cut? mark c.rest).map fun (before, after) => (before, c.past (before ++ mark) after)

/-! ## what was read -/

/-- The text between two cursors is `taken`. -/
def Reads (c : Cursor) (taken : List Char) (d : Cursor) : Prop :=
  c.rest = taken ++ d.rest ∧ d.offset = c.offset + byteLength taken

/-- The second cursor stands at or behind the first, in the same source. -/
def Reaches (c d : Cursor) : Prop := ∃ taken, c.Reads taken d

/-- The second cursor stands behind the first, in the same source. -/
def Passes (c d : Cursor) : Prop := ∃ taken, taken ≠ [] ∧ c.Reads taken d

theorem Reads.trans {c d e : Cursor} {s t : List Char} (h : c.Reads s d) (k : d.Reads t e) :
    c.Reads (s ++ t) e := by
  refine ⟨?_, ?_⟩
  · rw [h.1, k.1, List.append_assoc]
  · rw [k.2, h.2, byteLength_append, Nat.add_assoc]

theorem Reads.reaches {c d : Cursor} {s : List Char} (h : c.Reads s d) : c.Reaches d := ⟨s, h⟩

theorem Reads.passes {c d : Cursor} {s : List Char} (h : c.Reads s d) (hne : s ≠ []) :
    c.Passes d := ⟨s, hne, h⟩

theorem Reaches.refl (c : Cursor) : c.Reaches c := ⟨[], rfl, rfl⟩

theorem Reaches.trans {c d e : Cursor} : c.Reaches d → d.Reaches e → c.Reaches e
  | ⟨_, h⟩, ⟨_, k⟩ => ⟨_, h.trans k⟩

theorem Passes.reaches {c d : Cursor} : c.Passes d → c.Reaches d
  | ⟨_, _, h⟩ => ⟨_, h⟩

theorem Passes.trans_reaches {c d e : Cursor} : c.Passes d → d.Reaches e → c.Passes e
  | ⟨_, hne, h⟩, ⟨_, k⟩ => ⟨_, by simp [hne], h.trans k⟩

theorem Reaches.trans_passes {c d e : Cursor} : c.Reaches d → d.Passes e → c.Passes e
  | ⟨_, h⟩, ⟨_, hne, k⟩ => ⟨_, by simp [hne], h.trans k⟩

/-- A cursor that passes another has less to read. -/
theorem Passes.length_lt {c d : Cursor} : c.Passes d → d.rest.length < c.rest.length
  | ⟨taken, hne, h, _⟩ => by
    have := List.length_pos_iff.2 hne
    rw [h, List.length_append]; omega

/-- Moving along a source keeps its last position. -/
theorem Reaches.stop_eq {c d : Cursor} : c.Reaches d → d.stop = c.stop
  | ⟨_, h, k⟩ => by simp [stop, h, k, Nat.add_assoc]

theorem reads_past {c : Cursor} {taken rest : List Char} (h : c.rest = taken ++ rest) :
    c.Reads taken (c.past taken rest) := ⟨h, rfl⟩

theorem reads_mark {c : Cursor} {rest : List Char} (mark : List Char) (h : c.rest = mark ++ rest) :
    c.Reads mark (c.past mark rest) := reads_past h

theorem reads_skipWhile (p : Char → Bool) (c : Cursor) :
    c.Reads (c.rest.takeWhile p) (c.skipWhile p) :=
  reads_past List.takeWhile_append_dropWhile.symm

theorem reaches_skipWhile (p : Char → Bool) (c : Cursor) : c.Reaches (c.skipWhile p) :=
  ⟨_, reads_skipWhile p c⟩

theorem reads_takeWhile (p : Char → Bool) (c : Cursor) :
    c.Reads (c.takeWhile p).1 (c.takeWhile p).2 := reads_skipWhile p c

theorem reads_takeUntil (boundary : List Char → Bool) (c : Cursor) :
    c.Reads (c.takeUntil boundary).1 (c.takeUntil boundary).2 :=
  reads_past (breakAt_append boundary c.rest).symm

theorem reads_skip? {mark : List Char} {c d : Cursor} (h : c.skip? mark = some d) :
    c.Reads mark d := by
  obtain ⟨rest, hrest, rfl⟩ := Option.map_eq_some_iff.1 h
  exact reads_past (dropMark?_eq_some_iff.1 hrest)

theorem reads_readTo? {mark before : List Char} {c d : Cursor}
    (h : c.readTo? mark = some (before, d)) : c.Reads (before ++ mark) d := by
  obtain ⟨⟨b, a⟩, hcut, heq⟩ := Option.map_eq_some_iff.1 h
  simp only [Prod.mk.injEq] at heq
  obtain ⟨rfl, rfl⟩ := heq
  exact reads_past (eq_append_of_cut? hcut)

end Cursor

end LiveTemplate
