import ApiClient.Proofs.Document.FreeReferences
import ApiClient.Proofs.Text.Utf8

/-!
# Names in pointers

A name is written into a pointer with `~` and `/` escaped, but it is read with percent escapes
replaced as well. So it is read back as it was exactly if it has no percent escape in it. A name
that has one is read as a shorter one. What stands in a pointer is read as it stands exactly if it
has no escape of any kind in it.
-/

namespace ApiClient

namespace Text

variable {sep : Char}

theorem splitOn_ne_nil (sep : Char) (cs : List Char) : splitOn sep cs ≠ [] := by
  cases cs with
  | nil => simp [splitOn]
  | cons c rest =>
    rw [splitOn]
    cases splitOn sep rest with
    | nil => simp
    | cons piece pieces =>
      dsimp only
      split <;> simp

theorem splitOn_append_cons {xs : List Char} (h : sep ∉ xs) (ys : List Char) :
    splitOn sep (xs ++ sep :: ys) = xs :: splitOn sep ys := by
  obtain ⟨piece, pieces, hys⟩ := List.exists_cons_of_ne_nil (splitOn_ne_nil sep ys)
  induction xs with
  | nil =>
    rw [List.nil_append, splitOn, hys]
    exact if_pos rfl
  | cons c xs ih =>
    rw [List.mem_cons, not_or] at h
    rw [List.cons_append, splitOn, ih h.2]
    exact if_neg (Ne.symm h.1)

/-- Texts without the separator are told apart after they are joined. -/
theorem splitOn_join_of_notMem {parts : List String} (hne : parts ≠ [])
    (h : ∀ s ∈ parts, sep ∉ s.toList) :
    splitOn sep (join (.singleton sep) parts).toList = parts.map String.toList := by
  induction parts with
  | nil => exact absurd rfl hne
  | cons s rest ih =>
    rw [List.forall_mem_cons] at h
    cases rest with
    | nil => exact splitOn_of_notMem h.1
    | cons t rest =>
      have hchars : (join (.singleton sep) (s :: t :: rest)).toList =
          s.toList ++ sep :: (join (.singleton sep) (t :: rest)).toList := by
        simp [join_cons_cons]
      rw [hchars, splitOn_append_cons h.1, ih (List.cons_ne_nil _ _) h.2]
      rfl

end Text

namespace Pointer

/-! ## Tildes and slashes -/

theorem unescapeSlash_cons {c : Char} (h : c ≠ '~') (cs : List Char) :
    unescapeSlash (c :: cs) = c :: unescapeSlash cs := by
  rw [unescapeSlash]
  rintro rest rfl
  exact absurd rfl h

theorem unescapeTilde_cons {c : Char} (h : c ≠ '~') (cs : List Char) :
    unescapeTilde (c :: cs) = c :: unescapeTilde cs := by
  rw [unescapeTilde]
  rintro rest rfl
  exact absurd rfl h

/-- The characters of an escaped name. -/
def escapeChars (cs : List Char) : List Char :=
  cs.flatMap fun c ↦ if c = '~' then ['~', '0'] else if c = '/' then ['~', '1'] else [c]

theorem escape_eq (name : String) : escape name = String.ofList (escapeChars name.toList) := rfl

theorem unescapeSlash_escapeChars (cs : List Char) : unescapeSlash (escapeChars cs) =
    cs.flatMap fun c ↦ if c = '~' then ['~', '0'] else [c] := by
  unfold escapeChars
  induction cs with
  | nil => rfl
  | cons c cs ih =>
    rw [List.flatMap_cons, List.flatMap_cons, ← ih]
    by_cases htilde : c = '~'
    · subst htilde
      simp [unescapeSlash]
    by_cases hslash : c = '/'
    · subst hslash
      simp [unescapeSlash]
    · simp [htilde, hslash, unescapeSlash_cons htilde]

/-- A tilde is read before the digit after it is, so `~01` stands for `~1` and not for a slash. -/
theorem unescape_escapeChars (cs : List Char) :
    unescapeTilde (unescapeSlash (escapeChars cs)) = cs := by
  rw [unescapeSlash_escapeChars]
  induction cs with
  | nil => rfl
  | cons c cs ih =>
    rw [List.flatMap_cons]
    by_cases htilde : c = '~'
    · subst htilde
      simp [unescapeTilde, ih]
    · simp [htilde, unescapeTilde_cons htilde, ih]

theorem notMem_escapeChars (cs : List Char) : '/' ∉ escapeChars cs := by
  intro h
  obtain ⟨c, -, hc⟩ := List.mem_flatMap.1 h
  split at hc
  · simp at hc
  split at hc
  · simp at hc
  next hslash => exact hslash (List.mem_singleton.1 hc).symm

/-! ## Percent signs -/

/-- Somewhere in a text stands a percent sign with two characters after it that mean a byte. -/
inductive HasEscape : List Char → Prop where
  | here {a b : Char} {rest : List Char} (h : (escapedByte? a b).isSome) :
      HasEscape ('%' :: a :: b :: rest)
  | later {c : Char} {rest : List Char} (h : HasEscape rest) : HasEscape (c :: rest)

theorem percentBytes_of_not_hasEscape {cs : List Char} (h : ¬HasEscape cs) :
    percentBytes cs = Text.Utf8.encode cs := by
  fun_induction percentBytes cs with
  | case1 a b rest byte hbyte ih => exact absurd (.here (by simp [hbyte])) h
  | case2 a b rest hnone ih =>
    rw [ih fun hrest ↦ h (.later hrest)]
    rfl
  | case3 c rest hne ih =>
    rw [ih fun hrest ↦ h (.later hrest)]
    rfl
  | case4 => rfl

section

open Text.Utf8 (decodeFrom Pending Continues cutOff)

variable {p : Option Pending} (hp : Continues p) {cs : List Char}

include hp

/-- A character that belongs to no escape adds one character to what is read after it. -/
theorem length_decodeFrom_encodeChar {bytes : List Nat} {k n : Nat}
    (h : (decodeFrom none bytes).length + k ≤ n) (c : Char) :
    (decodeFrom p (Text.Utf8.encodeChar c ++ bytes)).length + k ≤ n + 1 + (cutOff p).length := by
  rw [Text.Utf8.decodeFrom_encodeChar hp, List.length_append, List.length_cons]
  omega

theorem length_decodeFrom_percentBytes :
    (decodeFrom p (percentBytes cs)).length ≤ cs.length + (cutOff p).length := by
  fun_induction percentBytes cs generalizing p with
  | case1 a b rest byte hbyte ih =>
    obtain ⟨q, hq, hlength⟩ := Text.Utf8.length_decodeFrom_cons p byte (percentBytes rest)
    have := ih hq
    simp only [List.length_cons]
    omega
  | case2 a b rest hnone ih =>
    exact length_decodeFrom_encodeChar (k := 0) hp (ih Text.Utf8.continues_none) '%'
  | case3 c rest hne ih =>
    exact length_decodeFrom_encodeChar (k := 0) hp (ih Text.Utf8.continues_none) c
  | case4 => cases p <;> simp [decodeFrom, cutOff]

/-- An escape is read as one character at most. -/
theorem length_decodeFrom_lt (h : HasEscape cs) :
    (decodeFrom p (percentBytes cs)).length < cs.length + (cutOff p).length := by
  fun_induction percentBytes cs generalizing p with
  | case1 a b rest byte hbyte ih =>
    obtain ⟨q, hq, hlength⟩ := Text.Utf8.length_decodeFrom_cons p byte (percentBytes rest)
    have hrest : (decodeFrom q (percentBytes rest)).length ≤ rest.length + (cutOff q).length :=
      length_decodeFrom_percentBytes hq
    simp only [List.length_cons]
    omega
  | case2 a b rest hnone ih =>
    cases h with
    | here hbyte => simp [hnone] at hbyte
    | later h =>
      exact length_decodeFrom_encodeChar (k := 1) hp (ih Text.Utf8.continues_none h) '%'
  | case3 c rest hne ih =>
    cases h with
    | here hbyte => exact (hne _ _ _ rfl rfl).elim
    | later h => exact length_decodeFrom_encodeChar (k := 1) hp (ih Text.Utf8.continues_none h) c
  | case4 => cases h

end

/-- Percent decoding leaves a text as it is exactly if it has no escape in it. -/
theorem percentDecode_eq_iff {cs : List Char} : percentDecode cs = cs ↔ ¬HasEscape cs := by
  constructor
  · intro heq h
    have hlt := length_decodeFrom_lt Text.Utf8.continues_none h
    have hlength := congrArg List.length heq
    rw [percentDecode, Text.Utf8.decode] at hlength
    simp only [Text.Utf8.cutOff_none, List.length_nil] at hlt
    omega
  · intro h
    rw [percentDecode, percentBytes_of_not_hasEscape h, Text.Utf8.decode_encode]

theorem length_percentDecode_le (cs : List Char) : (percentDecode cs).length ≤ cs.length := by
  have hle : (Text.Utf8.decode (percentBytes cs)).length ≤ cs.length + _ :=
    length_decodeFrom_percentBytes Text.Utf8.continues_none
  exact hle

/-! ## Segments that are read as they stand -/

/-- Replaces each tilde with a digit after it by another character. -/
def replaceTilde (digit other : Char) : List Char → List Char
  | '~' :: c :: rest =>
    if c = digit then other :: replaceTilde digit other rest
    else '~' :: replaceTilde digit other (c :: rest)
  | c :: rest => c :: replaceTilde digit other rest
  | [] => []

section

variable {digit other c : Char} {cs : List Char}

theorem replaceTilde_cons (h : ∀ rest, ¬(c = '~' ∧ cs = digit :: rest)) :
    replaceTilde digit other (c :: cs) = c :: replaceTilde digit other cs := by
  rw [replaceTilde.eq_def]
  split
  next d rest heq =>
    cases heq
    rw [if_neg fun hd ↦ h rest ⟨rfl, by rw [hd]⟩]
  next heq =>
    cases heq
    rfl
  next heq => cases heq

theorem unescapeSlash_eq (cs : List Char) : unescapeSlash cs = replaceTilde '1' '/' cs := by
  fun_induction unescapeSlash cs with
  | case1 rest ih => rw [replaceTilde, if_pos rfl, ih]
  | case2 c rest hne ih => rw [replaceTilde_cons fun _ h ↦ hne _ h.1 h.2, ih]
  | case3 => rfl

theorem unescapeTilde_eq (cs : List Char) : unescapeTilde cs = replaceTilde '0' '~' cs := by
  fun_induction unescapeTilde cs with
  | case1 rest ih => rw [replaceTilde, if_pos rfl, ih]
  | case2 c rest hne ih => rw [replaceTilde_cons fun _ h ↦ hne _ h.1 h.2, ih]
  | case3 => rfl

theorem length_replaceTilde_le (digit other : Char) (cs : List Char) :
    (replaceTilde digit other cs).length ≤ cs.length := by
  fun_induction replaceTilde digit other cs <;>
    simp only [List.length_cons, List.length_nil] at * <;> omega

theorem length_replaceTilde_lt (other : Char) (h : ['~', digit] <:+: cs) :
    (replaceTilde digit other cs).length < cs.length := by
  induction cs with
  | nil => simp at h
  | cons c rest ih =>
    by_cases hhead : ∃ rest', c = '~' ∧ rest = digit :: rest'
    · obtain ⟨rest', rfl, rfl⟩ := hhead
      have hle := length_replaceTilde_le digit other rest'
      rw [replaceTilde, if_pos rfl]
      simp only [List.length_cons]
      omega
    · have hrest : ['~', digit] <:+: rest := by
        refine (List.infix_cons_iff.1 h).resolve_left ?_
        rintro ⟨rest', heq⟩
        cases heq
        exact hhead ⟨_, rfl, rfl⟩
      rw [replaceTilde_cons (not_exists.1 hhead)]
      exact Nat.succ_lt_succ (ih hrest)

/-- A text is left as it is if the digit stands after no tilde. -/
theorem replaceTilde_eq_self (h : ¬['~', digit] <:+: cs) : replaceTilde digit other cs = cs := by
  induction cs with
  | nil => rfl
  | cons c rest ih =>
    rw [replaceTilde_cons, ih fun hrest ↦ h (hrest.trans (List.suffix_cons c rest).isInfix)]
    rintro rest' ⟨rfl, rfl⟩
    exact h ⟨[], rest', rfl⟩

end

/-- A tilde with `0` or `1` after it, or a percent escape. -/
def Escaped (cs : List Char) : Prop :=
  ['~', '0'] <:+: cs ∨ ['~', '1'] <:+: cs ∨ HasEscape cs

/-- A segment is read as it stands exactly if it has no escape in it: each escape makes it shorter,
and nothing makes it longer. -/
theorem decodeSegment_eq_self_iff {cs : List Char} : decodeSegment cs = cs ↔ ¬Escaped cs := by
  unfold decodeSegment Escaped
  rw [unescapeSlash_eq, unescapeTilde_eq, not_or, not_or]
  constructor
  · intro heq
    have hpercent := length_percentDecode_le (replaceTilde '0' '~' (replaceTilde '1' '/' cs))
    have hle := length_replaceTilde_le '0' '~' (replaceTilde '1' '/' cs)
    rw [heq] at hpercent
    have hslash : ¬['~', '1'] <:+: cs := by
      intro h
      have := length_replaceTilde_lt '/' h
      omega
    rw [replaceTilde_eq_self hslash] at heq hpercent
    have htilde : ¬['~', '0'] <:+: cs := by
      intro h
      have := length_replaceTilde_lt '~' h
      omega
    rw [replaceTilde_eq_self htilde] at heq
    exact ⟨htilde, hslash, percentDecode_eq_iff.1 heq⟩
  · rintro ⟨htilde, hslash, hescape⟩
    rw [replaceTilde_eq_self hslash, replaceTilde_eq_self htilde, percentDecode_eq_iff.2 hescape]

/-- The last name that a reference leads along is read from its last part. -/
theorem getLast?_segments {reference : String} {names : List String}
    (h : segments reference = .ok names) :
    names.getLast? = some (String.ofList (decodeSegment (baseName reference).toList)) := by
  unfold segments at h
  split at h
  next path hpath =>
    obtain ⟨piece, pieces, hpieces⟩ := List.exists_cons_of_ne_nil (Text.splitOn_ne_nil '/' path)
    have hsplit : Text.splitOn '/' reference.toList = ['#'] :: Text.splitOn '/' path := by
      have hhash : '/' ∉ ['#'] := by decide
      rw [hpath]
      exact Text.splitOn_append_cons hhash path
    rw [← Except.ok.inj h, baseName, hsplit, hpieces, String.toList_ofList, List.getLast?_map,
      List.getLast?_cons, List.getLastD_cons, List.getLastD_cons, List.getLastD_eq_getLast?,
      Option.map_some]
  next => cases h
/-! ## Pointers made of names -/

/-- The pointer that leads along names from the root. -/
def along (names : List String) : String :=
  "#/" ++ Text.join "/" (names.map escape)

theorem segments_along {names : List String} (hne : names ≠ []) : segments (along names) =
    .ok (names.map fun name ↦ String.ofList (percentDecode name.toList)) := by
  have hpath : (along names).toList =
      '#' :: '/' :: (Text.join (.singleton '/') (names.map escape)).toList := by
    rw [along, String.toList_append]
    rfl
  have hslash : ∀ s ∈ names.map escape, '/' ∉ s.toList := by
    rw [List.forall_mem_map]
    intro name _
    rw [escape_eq, String.toList_ofList]
    exact notMem_escapeChars _
  unfold segments
  rw [hpath]
  show Except.ok _ = _
  rw [Text.splitOn_join_of_notMem (by simpa using hne) hslash, List.map_map, List.map_map]
  refine congrArg Except.ok (List.map_congr_left fun name _ ↦ ?_)
  rw [Function.comp_apply, Function.comp_apply, decodeSegment, escape_eq, String.toList_ofList,
    unescape_escapeChars]

/-- Names are read back from a pointer as they were exactly if none has a percent escape in it. -/
theorem segments_along_eq_iff {names : List String} (hne : names ≠ []) :
    segments (along names) = .ok names ↔ ∀ name ∈ names, ¬HasEscape name.toList := by
  have hname : ∀ name : String, String.ofList (percentDecode name.toList) = name ↔
      ¬HasEscape name.toList := by
    intro name
    rw [← percentDecode_eq_iff, ← String.toList_inj, String.toList_ofList]
  have hmap : names.map id = names := List.map_id names
  rw [segments_along hne, Except.ok.injEq]
  nth_rewrite 2 [← hmap]
  simp only [List.map_inj_left, id, hname]

/-! ## Components -/

theorem componentName?_eq_some {path name : String} : componentName? path = some name ↔
    segments path = .ok ["components", "schemas", name] := by
  unfold componentName?
  constructor
  · intro h
    split at h
    next hsegments => rw [hsegments, Option.some.inj h]
    next => cases h
  · intro h
    rw [h]
    rfl

theorem ofComponent_eq_along (name : String) :
    ofComponent name = along ["components", "schemas", name] := by
  have hcomponents : escape "components" = "components" := by simp [escape]
  have hschemas : escape "schemas" = "schemas" := by simp [escape]
  show "#/components/schemas/" ++ escape name =
    "#/" ++ (escape "components" ++ "/" ++ (escape "schemas" ++ "/" ++ escape name))
  rw [hcomponents, hschemas, ← String.toList_inj]
  simp only [String.toList_append]
  rfl

theorem segments_ofComponent (name : String) : segments (ofComponent name) =
    .ok ["components", "schemas", String.ofList (percentDecode name.toList)] := by
  have hcomponents : String.ofList (percentDecode "components".toList) = "components" := by decide
  have hschemas : String.ofList (percentDecode "schemas".toList) = "schemas" := by decide
  rw [ofComponent_eq_along, segments_along (List.cons_ne_nil _ _), List.map_cons, List.map_cons,
    List.map_singleton, hcomponents, hschemas]

theorem ofComponent_injective {name other : String} (h : ofComponent name = ofComponent other) :
    name = other := by
  have hchars := congrArg String.toList (String.append_right_inj _ |>.1 h)
  rw [escape_eq, escape_eq, String.toList_ofList, String.toList_ofList] at hchars
  rw [← String.toList_inj, ← unescape_escapeChars name.toList, hchars, unescape_escapeChars]

end Pointer

end ApiClient
