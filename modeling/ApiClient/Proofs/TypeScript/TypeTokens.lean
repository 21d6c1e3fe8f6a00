import ApiClient.Proofs.Decimal.Numerals
import ApiClient.Proofs.TypeScript.Identifiers
import ApiClient.Proofs.TypeScript.Templates

/-!
# The tokens of types

A type is written in words, numbers, texts in quotes and marks, with blanks between some of them. A
word is a run of the characters that an identifier continues with and does not begin with a digit.
-/

namespace ApiClient.TypeScript

inductive Token where
  | word (s : String)
  | number (n : Json.Number)
  | text (s : String)
  /-- A character that is a token by itself. -/
  | mark (c : Char)
deriving DecidableEq

def typeMarks : List Char :=
  ['[', ']', '(', ')', '\x7b', '\x7d', '|', '&', ',', ':', ';', '?', '.']

def startsWord (c : Char) : Bool :=
  !c.isDigit && continuesIdentifier c

def continuesNumber (c : Char) : Bool :=
  c.isDigit || Decimal.marks.contains c

/-- The characters of a text in quotes from behind the opening quote up to the closing one, and what
comes behind it. -/
def splitQuoted : List Char → Option (List Char × List Char)
  | [] => none
  | '"' :: rest => some (['"'], rest)
  | '\\' :: c :: rest => (splitQuoted rest).map fun (inner, after) ↦ ('\\' :: c :: inner, after)
  | c :: rest => (splitQuoted rest).map fun (inner, after) ↦ (c :: inner, after)

theorem length_of_splitQuoted {cs inner after : List Char}
    (h : splitQuoted cs = some (inner, after)) : after.length < cs.length := by
  fun_induction splitQuoted cs generalizing inner with
  | case1 => cases h
  | case2 rest =>
    cases h
    exact Nat.lt_succ_self _
  | case3 c rest ih =>
    obtain ⟨⟨inner', after'⟩, hrest, heq⟩ := Option.map_eq_some_iff.1 h
    cases heq
    have hlt := ih hrest
    simp only [List.length_cons]
    omega
  | case4 c rest _ _ ih =>
    obtain ⟨⟨inner', after'⟩, hrest, heq⟩ := Option.map_eq_some_iff.1 h
    cases heq
    exact Nat.lt_trans (ih hrest) (Nat.lt_succ_self _)

/-- The text that stands in quotes without expressions. -/
def plainText (inner : List Char) : Option String :=
  literalText (fun _ ↦ none) (String.ofList ('"' :: inner))

/-- The tokens of a text. -/
def lex (cs : List Char) : Option (List Token) :=
  match cs with
  | [] => some []
  | c :: rest =>
    if c = ' ' then lex rest
    else if typeMarks.contains c then (lex rest).map (.mark c :: ·)
    else if startsWord c then
      (lex (rest.dropWhile continuesIdentifier)).map
        (.word (String.ofList (c :: rest.takeWhile continuesIdentifier)) :: ·)
    else if c = '"' then
      match _ : splitQuoted rest with
      | some (inner, after) =>
        (plainText inner).bind fun s ↦ (lex after).map (.text s :: ·)
      | none => none
    else
      (Json.readNumber (c :: rest.takeWhile continuesNumber)).bind fun n ↦
        (lex (rest.dropWhile continuesNumber)).map (.number n :: ·)
termination_by cs.length
decreasing_by
  · exact Nat.lt_succ_self _
  · exact Nat.lt_succ_self _
  · exact Nat.lt_succ_of_le (List.length_dropWhile_le _ _)
  · rename_i h
    exact Nat.lt_succ_of_lt (length_of_splitQuoted h)
  · exact Nat.lt_succ_of_le (List.length_dropWhile_le _ _)

/-! ## Single tokens -/

section

variable {cs rest : List Char} {c : Char}

theorem lex_nil : lex [] = some [] := by
  rw [lex]

theorem lex_blank (cs : List Char) : lex (' ' :: cs) = lex cs := by
  rw [lex, if_pos rfl]

theorem lex_mark (hc : c ∈ typeMarks) (cs : List Char) :
    lex (c :: cs) = (lex cs).map (.mark c :: ·) := by
  have hblank : c ≠ ' ' := by
    rintro rfl
    exact absurd hc (by decide)
  rw [lex, if_neg hblank, if_pos (List.contains_iff_mem.2 hc)]

theorem not_continues_of_mark {c : Char} (h : c ∈ typeMarks ∨ c = '"' ∨ c = ' ') :
    continuesIdentifier c = false ∧ c.isDigit = false := by
  have htable : ('"' :: ' ' :: typeMarks).all fun c ↦ !continuesIdentifier c && !c.isDigit := by
    decide +kernel
  have hc := List.all_eq_true.1 htable c (by grind)
  simpa using hc

theorem lex_other {c : Char} (hblank : c ≠ ' ') (hmark : c ∉ typeMarks) (cs : List Char) :
    lex (c :: cs) =
      if startsWord c then
        (lex (cs.dropWhile continuesIdentifier)).map
          (.word (String.ofList (c :: cs.takeWhile continuesIdentifier)) :: ·)
      else if c = '"' then
        (splitQuoted cs).bind fun (inner, after) ↦
          (plainText inner).bind fun s ↦ (lex after).map (.text s :: ·)
      else
        (Json.readNumber (c :: cs.takeWhile continuesNumber)).bind fun n ↦
          (lex (cs.dropWhile continuesNumber)).map (.number n :: ·) := by
  have hcontains : ¬typeMarks.contains c := mt List.contains_iff_mem.1 hmark
  rw [lex, if_neg hblank, if_neg hcontains]
  split_ifs
  · rfl
  · split
    next heq => rw [heq]; rfl
    next heq => rw [heq]; rfl
  · rfl

theorem isPlainKey_iff {w : String} : isPlainKey w ↔ ∃ c cs, w.toList = c :: cs ∧ startsWord c ∧
    ∀ d ∈ cs, continuesIdentifier d := by
  unfold isPlainKey startsWord
  split
  next h => simp [h]
  next c cs h =>
    rw [h]
    simp [and_assoc]

theorem lex_word {w : String} (hw : isPlainKey w)
    (hrest : ∀ c ∈ rest.head?, continuesIdentifier c = false) :
    lex (w.toList ++ rest) = (lex rest).map (.word w :: ·) := by
  obtain ⟨c, cs, hchars, hstarts, hcs⟩ := isPlainKey_iff.1 hw
  have hcontinues : continuesIdentifier c := (Bool.and_eq_true _ _ ▸ hstarts).2
  have hother : ¬(c ∈ typeMarks ∨ c = '"' ∨ c = ' ') := fun h ↦ by
    rw [(not_continues_of_mark h).1] at hcontinues
    cases hcontinues
  obtain ⟨htake, hdrop⟩ := Text.takeWhile_append hcs hrest
  rw [hchars, List.cons_append, lex_other (by grind) (by grind), if_pos hstarts, htake, hdrop,
    ← hchars, String.ofList_toList]

/-! ## Texts in quotes -/

theorem splitQuoted_cons {c : Char} (hquote : c ≠ '"') (hbackslash : c ≠ '\\') (cs : List Char) :
    splitQuoted (c :: cs) = (splitQuoted cs).map fun (inner, after) ↦ (c :: inner, after) := by
  rw [splitQuoted]
  · exact hquote
  · exact fun _ _ heq ↦ absurd heq hbackslash

theorem splitQuoted_plain {ds : List Char} (hds : ∀ d ∈ ds, d ≠ '"' ∧ d ≠ '\\') (cs : List Char) :
    splitQuoted (ds ++ cs) = (splitQuoted cs).map fun (inner, after) ↦ (ds ++ inner, after) := by
  induction ds with
  | nil => simp
  | cons d ds ih =>
    obtain ⟨⟨hquote, hbackslash⟩, hrest⟩ := List.forall_mem_cons.1 hds
    rw [List.cons_append, splitQuoted_cons hquote hbackslash, ih hrest, Option.map_map]
    rfl

/-- A character is written as itself, or with a backslash, any character and plain ones. -/
theorem escapeChar_cases (c : Char) :
    (Json.escapeChar c = [c] ∧ c ≠ '"' ∧ c ≠ '\\') ∨
      ∃ d ds, Json.escapeChar c = '\\' :: d :: ds ∧ ∀ e ∈ ds, e ≠ '"' ∧ e ≠ '\\' := by
  by_cases hquote : c = '"'
  · exact .inr ⟨'"', [], by rw [hquote]; rfl, by simp⟩
  by_cases hbackslash : c = '\\'
  · exact .inr ⟨'\\', [], by rw [hbackslash]; rfl, by simp⟩
  by_cases hcontrol : c.toNat < 0x20
  · have htable : ∀ n < 0x20, Json.escapeChar (Char.ofNat n) =
        '\\' :: (Json.escapeChar (Char.ofNat n)).tail.headD 'u' ::
          (Json.escapeChar (Char.ofNat n)).tail.tail ∧
        (Json.escapeChar (Char.ofNat n)).tail.tail.all fun e ↦ e != '"' && e != '\\' := by
      decide
    obtain ⟨hd, hds⟩ := htable c.toNat hcontrol
    rw [Char.ofNat_toNat] at hd hds
    exact .inr ⟨_, _, hd, fun e he ↦ by simpa using List.all_eq_true.1 hds e he⟩
  · exact .inl ⟨escapeChar_eq_self hcontrol hquote hbackslash, hquote, hbackslash⟩

theorem splitQuoted_escapeChar (c : Char) (cs : List Char) :
    splitQuoted (Json.escapeChar c ++ cs) =
      (splitQuoted cs).map fun (inner, after) ↦ (Json.escapeChar c ++ inner, after) := by
  rcases escapeChar_cases c with ⟨hself, hquote, hbackslash⟩ | ⟨d, ds, hescape, hds⟩
  · rw [hself]
    exact splitQuoted_cons hquote hbackslash cs
  · rw [hescape, List.cons_append, List.cons_append, splitQuoted, splitQuoted_plain hds,
      Option.map_map]
    rfl

theorem splitQuoted_escaped (cs rest : List Char) :
    splitQuoted (cs.flatMap Json.escapeChar ++ '"' :: rest) =
      some (cs.flatMap Json.escapeChar ++ ['"'], rest) := by
  induction cs with
  | nil => rfl
  | cons c cs ih =>
    rw [List.flatMap_cons, List.append_assoc, splitQuoted_escapeChar, ih, Option.map_some,
      List.append_assoc]

theorem plainText_escaped (s : String) :
    plainText (s.toList.flatMap Json.escapeChar ++ ['"']) = some s := by
  have hread : readLiteral (Json.quote s) = some (itemsOf [.text s]) := by
    rw [readLiteral_quote, itemsOf_text, itemsOf_nil, List.append_nil]
  have htext := @literalText_of_itemsOf (fun _ ↦ none) (fun _ ↦ "") _ _ hread (by simp)
  rw [plainText, ← Json.quote, htext]
  simp [partText]

theorem lex_quote (s : String) (rest : List Char) :
    lex ((Json.quote s).toList ++ rest) = (lex rest).map (.text s :: ·) := by
  have hchars : (Json.quote s).toList ++ rest =
      '"' :: (s.toList.flatMap Json.escapeChar ++ '"' :: rest) := by
    rw [Json.quote, String.toList_ofList]
    simp
  have hword : ¬startsWord '"' := by decide
  rw [hchars, lex_other (by decide) (by decide), if_neg hword, if_pos rfl, splitQuoted_escaped,
    Option.bind_some]
  dsimp only
  rw [plainText_escaped, Option.bind_some]

/-! ## Numbers -/

theorem lex_number {n : Json.Number} (hn : n.IsValid)
    (hrest : ∀ c ∈ rest.head?, continuesNumber c = false) :
    lex (n.text.toList ++ rest) = (lex rest).map (.number n :: ·) := by
  obtain ⟨negative, d, ds, hd, htext, -⟩ := Json.Number.exists_unsigned hn
  have hfirst : ∃ c cs, n.text.toList = c :: cs ∧ (c.isDigit ∨ c = '-') := by
    cases negative with
    | true => exact ⟨'-', _, htext, .inr rfl⟩
    | false => exact ⟨d, _, htext, .inl hd⟩
  obtain ⟨c, cs, hchars, hc⟩ := hfirst
  have hall : ∀ e ∈ cs, continuesNumber e := fun e he ↦ by
    have hmem : e ∈ n.text.toList := hchars ▸ List.mem_cons_of_mem c he
    rw [continuesNumber, Bool.or_eq_true, List.contains_iff_mem]
    exact Json.Number.isDigit_or_mark hmem
  have hother : ¬(c ∈ typeMarks ∨ c = '"' ∨ c = ' ') ∧ ¬startsWord c := by
    rcases hc with hc | rfl
    · refine ⟨fun h ↦ ?_, by simp [startsWord, hc]⟩
      rw [(not_continues_of_mark h).2] at hc
      cases hc
    · exact ⟨by decide, by decide⟩
  obtain ⟨htake, hdrop⟩ := Text.takeWhile_append hall hrest
  rw [hchars, List.cons_append, lex_other (by grind) (by grind), if_neg hother.2,
    if_neg (by grind), htake, hdrop, ← hchars, Json.readNumber_text hn, Option.bind_some]

end

/-! ## Runs of tokens -/

/-- A character that neither a word nor a number goes on with. -/
def breaks (c : Char) : Bool :=
  !continuesIdentifier c && !continuesNumber c

/-- A text is read as these tokens, whatever comes behind it and breaks it off. -/
def Lexes (cs : List Char) (ts : List Token) : Prop :=
  ∀ rest : List Char, (∀ c ∈ rest.head?, breaks c) → lex (cs ++ rest) = (lex rest).map (ts ++ ·)

section

variable {cs ds : List Char} {ts us : List Token} {c : Char}

theorem Lexes.lex_eq (h : Lexes cs ts) : lex cs = some ts := by
  have hend := h [] (by simp)
  rwa [List.append_nil, lex_nil, Option.map_some, List.append_nil] at hend

theorem lexes_nil : Lexes [] [] := by
  intro rest _
  simp

theorem Lexes.mark_cons (h : Lexes cs ts) (hc : c ∈ typeMarks) :
    Lexes (c :: cs) (.mark c :: ts) := by
  intro rest hrest
  rw [List.cons_append, lex_mark hc, h rest hrest, Option.map_map]
  rfl

theorem lexes_blank_cons_iff : Lexes (' ' :: cs) ts ↔ Lexes cs ts := by
  unfold Lexes
  simp only [List.cons_append, lex_blank]

theorem Lexes.blank_cons (h : Lexes cs ts) : Lexes (' ' :: cs) ts :=
  lexes_blank_cons_iff.2 h

theorem Lexes.append (hcs : Lexes cs ts) (hds : Lexes (c :: ds) us) (hc : breaks c) :
    Lexes (cs ++ c :: ds) (ts ++ us) := by
  intro rest hrest
  have hbreak : ∀ d ∈ (c :: ds ++ rest).head?, breaks d := fun d hd ↦ Option.some_inj.1 hd ▸ hc
  rw [List.append_assoc, hcs _ hbreak, hds rest hrest, Option.map_map]
  congr 1
  funext vs
  exact (List.append_assoc ts us vs).symm

theorem lexes_word {w : String} (hw : isPlainKey w) : Lexes w.toList [.word w] := by
  intro rest hrest
  refine lex_word hw fun c hc ↦ ?_
  have hbreaks := hrest c hc
  rw [breaks, Bool.and_eq_true, Bool.not_eq_true'] at hbreaks
  exact hbreaks.1

theorem lexes_quote (s : String) : Lexes (Json.quote s).toList [.text s] :=
  fun rest _ ↦ lex_quote s rest

theorem lexes_number {n : Json.Number} (hn : n.IsValid) : Lexes n.text.toList [.number n] := by
  intro rest hrest
  refine lex_number hn fun c hc ↦ ?_
  have hbreaks := hrest c hc
  rw [breaks, Bool.and_eq_true, Bool.not_eq_true', Bool.not_eq_true'] at hbreaks
  exact hbreaks.2

/-- The tokens of the segments of a name behind the first. -/
def pathTokens : List String → List Token
  | [] => []
  | w :: ws => .mark '.' :: .word w :: pathTokens ws

theorem lexes_path {w : String} {ws : List String} (hw : isPlainKey w)
    (hws : ∀ v ∈ ws, isPlainKey v) :
    Lexes (Text.join "." (w :: ws)).toList (.word w :: pathTokens ws) := by
  induction ws generalizing w with
  | nil => exact lexes_word hw
  | cons v vs ih =>
    obtain ⟨hv, hvs⟩ := List.forall_mem_cons.1 hws
    have hchars : (Text.join "." (w :: v :: vs)).toList =
        w.toList ++ '.' :: (Text.join "." (v :: vs)).toList := by
      rw [Text.join_cons_cons, String.toList_append, String.toList_append, List.append_assoc]
      rfl
    intro rest hrest
    have hpoint : ∀ c ∈ ('.' :: ((Text.join "." (v :: vs)).toList ++ rest)).head?,
        continuesIdentifier c = false := fun c hc ↦ Option.some_inj.1 hc ▸ by decide
    rw [hchars, List.append_assoc, List.cons_append, lex_word hw hpoint, lex_mark (by decide),
      ih hv hvs rest hrest, Option.map_map, Option.map_map]
    rfl

end

end ApiClient.TypeScript
