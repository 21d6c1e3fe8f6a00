import ApiClient.Proofs.Operation.Closed

/-!
# Filling in placeholders

A text is filled in from left to right: up to its first placeholder it stays as it is, a value takes
the place of the placeholder, and what stands behind the placeholder is filled in in the same way.
What is put in is not looked at again.
-/

namespace ApiClient.Piece

/-- Filling in the placeholders of a text from left to right, with a value for each name. -/
inductive Filled (value : List Char → List Char) : List Char → List Char → Prop where
  | done {cs : List Char}
      (hnone : ∀ before inside after, cs ≠ before ++ '\x7b' :: (inside ++ '\x7d' :: after)) :
      Filled value cs cs
  | fill {before inside after out : List Char} (hbefore : '\x7b' ∉ before)
      (hinside : '\x7d' ∉ inside) (hafter : Filled value after out) :
      Filled value (before ++ '\x7b' :: (inside ++ '\x7d' :: after))
        (before ++ (value inside ++ out))

/-! ## The first placeholder -/

section

variable {c : Char} {before : List Char}

theorem bne_of_notMem (h : c ∉ before) : ∀ d ∈ before, (d != c) = true := by
  rintro d hd
  exact bne_iff_ne.2 fun hdc ↦ h (hdc ▸ hd)

theorem takeWhile_bne (h : c ∉ before) (after : List Char) :
    (before ++ c :: after).takeWhile (· != c) = before := by
  rw [List.takeWhile_append_of_pos (bne_of_notMem h)]
  simp

theorem dropWhile_bne (h : c ∉ before) (after : List Char) :
    (before ++ c :: after).dropWhile (· != c) = c :: after := by
  rw [List.dropWhile_append_of_pos (bne_of_notMem h)]
  simp

theorem dropWhile_bne_eq_nil (h : c ∉ before) : before.dropWhile (· != c) = [] := by
  rw [← List.append_nil before, List.dropWhile_append_of_pos (bne_of_notMem h)]
  rfl

end

variable {cs before inside after out : List Char} {value : List Char → List Char}

theorem first?_append (hbefore : '\x7b' ∉ before) (hinside : '\x7d' ∉ inside) :
    first? (before ++ '\x7b' :: (inside ++ '\x7d' :: after)) = some (before, inside, after) := by
  rw [first?, dropWhile_bne hbefore, takeWhile_bne hbefore]
  dsimp only
  rw [dropWhile_bne hinside, takeWhile_bne hinside]

/-- Behind the first opening brace stands all that stands behind another one. -/
theorem mem_of_append_brace {rest before' rest' : List Char} {c : Char}
    (h : before ++ '\x7b' :: rest = before' ++ '\x7b' :: rest') (hbefore : '\x7b' ∉ before)
    (hc : c ∈ rest') : c ∈ rest := by
  rcases List.append_eq_append_iff.1 h with ⟨as, rfl, has⟩ | ⟨as, rfl, has⟩
  · cases as <;> cases has <;> simp [hc]
  · cases as with
    | nil =>
      cases has
      exact hc
    | cons a as =>
      cases has
      simp at hbefore

/-- A text has a first placeholder, or none. -/
theorem first?_cases (cs : List Char) :
    (first? cs = none ∧
      ∀ before inside after, cs ≠ before ++ '\x7b' :: (inside ++ '\x7d' :: after)) ∨
      ∃ before inside after, '\x7b' ∉ before ∧ '\x7d' ∉ inside ∧
        cs = before ++ '\x7b' :: (inside ++ '\x7d' :: after) := by
  by_cases hopen : '\x7b' ∈ cs
  · obtain ⟨before, rest, rfl, hbefore⟩ := List.eq_append_cons_of_mem hopen
    by_cases hclose : '\x7d' ∈ rest
    · obtain ⟨inside, after, rfl, hinside⟩ := List.eq_append_cons_of_mem hclose
      exact .inr ⟨before, inside, after, hbefore, hinside, rfl⟩
    · refine .inl ⟨?_, fun before' inside after h ↦ ?_⟩
      · rw [first?, dropWhile_bne hbefore]
        dsimp only
        rw [dropWhile_bne_eq_nil hclose]
      · exact hclose (mem_of_append_brace h hbefore (by simp))
  · refine .inl ⟨?_, ?_⟩
    · rw [first?, dropWhile_bne_eq_nil hopen]
    · rintro before inside after rfl
      exact hopen (by simp)

theorem split_append (hbefore : '\x7b' ∉ before) (hinside : '\x7d' ∉ inside) :
    split (before ++ '\x7b' :: (inside ++ '\x7d' :: after)) =
      ofText before ++ .name inside :: split after :=
  split_of_first? (first?_append hbefore hinside)

/-- Induction along the placeholders of a text. -/
theorem placeholderInduction {motive : List Char → Prop}
    (done : ∀ cs, first? cs = none →
      (∀ before inside after, cs ≠ before ++ '\x7b' :: (inside ++ '\x7d' :: after)) → motive cs)
    (fill : ∀ before inside after, '\x7b' ∉ before → '\x7d' ∉ inside → motive after →
      motive (before ++ '\x7b' :: (inside ++ '\x7d' :: after))) (cs : List Char) : motive cs := by
  rcases first?_cases cs with ⟨hfirst, hnone⟩ | ⟨before, inside, after, hbefore, hinside, hcs⟩
  · exact done cs hfirst hnone
  · exact hcs ▸ fill before inside after hbefore hinside (placeholderInduction done fill after)
termination_by cs.length
decreasing_by
  simp only [hcs, List.length_append, List.length_cons]
  omega

/-! ## The pieces of a text -/

/-- What a piece is filled in with. -/
def fillWith (value : List Char → List Char) : Piece → List Char
  | .text cs => cs
  | .name cs => value cs

theorem flatMap_ofText {α : Type} (f : Piece → List α) (hnil : f (.text []) = [])
    (cs : List Char) : (ofText cs).flatMap f = f (.text cs) := by
  cases cs with
  | nil => exact hnil.symm
  | cons c cs => exact List.append_nil _

theorem source_split (cs : List Char) : (split cs).flatMap source = cs := by
  induction cs using placeholderInduction with
  | done cs hfirst _ =>
    rw [split_of_first?_eq_none hfirst, flatMap_ofText _ rfl]
    rfl
  | fill before inside after hbefore hinside ih =>
    rw [split_append hbefore hinside, List.flatMap_append, List.flatMap_cons, ih,
      flatMap_ofText _ rfl]
    simp [source]

theorem source_subset {piece : Piece} (h : piece ∈ split cs) : piece.source ⊆ cs := by
  intro c hc
  rw [← source_split cs]
  exact List.mem_flatMap.2 ⟨piece, h, hc⟩

/-- The pieces of a text, each filled in, are the text filled in. -/
theorem filled_split (value : List Char → List Char) (cs : List Char) :
    Filled value cs ((split cs).flatMap (fillWith value)) := by
  induction cs using placeholderInduction with
  | done cs hfirst hnone =>
    rw [split_of_first?_eq_none hfirst, flatMap_ofText _ rfl]
    exact .done hnone
  | fill before inside after hbefore hinside ih =>
    rw [split_append hbefore hinside, List.flatMap_append, List.flatMap_cons,
      flatMap_ofText _ rfl]
    exact .fill hbefore hinside ih

/-- A text can be filled in in one way only. -/
theorem Filled.eq (h : Filled value cs out) : out = (split cs).flatMap (fillWith value) := by
  induction h with
  | @done cs hnone =>
    rcases first?_cases cs with ⟨hfirst, -⟩ | ⟨before, inside, after, -, -, hcs⟩
    · rw [split_of_first?_eq_none hfirst, flatMap_ofText _ rfl]
      rfl
    · exact absurd hcs (hnone _ _ _)
  | fill hbefore hinside _ ih =>
    rw [split_append hbefore hinside, List.flatMap_append, List.flatMap_cons,
      flatMap_ofText _ rfl, ih]
    rfl

end ApiClient.Piece
