import ApiClient.Proofs.TypeScript.TypeGrammar

/-!
# Types that are read back

The text of a type is read as that type up to its normal form. What a type is read as depends on
what stands around it, so three things go through the induction: every type is read between bars,
every type but a union of several between ampersands, and every type but a union or an intersection
in front of brackets. Parentheses are written where a type would be read in none of these ways.
-/

namespace ApiClient.TypeScript

/-! ## Reading back -/

namespace Ty

/-- Tokens that are read as a type up to its normal form, on each level where it can stand. -/
structure ReadsBack (t : Ty) (ts : List Token) : Prop where
  alternatives : ∃ us, ReadsAlternatives ts us ∧
    Joint.union.normalParts us = Joint.union.parts t.normal
  factors : t.isWideUnion = false → ∃ us, ReadsFactors ts us ∧
    Joint.inter.normalParts us = Joint.inter.parts t.normal
  operand : t.isLoose = false → ∃ u, ReadsOperand ts u ∧ u.normal = t.normal

variable {t u : Ty} {ts : List Token} {us : List Ty}

theorem ReadsBack.of_factors (h : ReadsFactors ts us)
    (hnormal : Joint.inter.normalParts us = Joint.inter.parts t.normal)
    (hloose : t.isLoose = true) :
    t.ReadsBack ts where
  alternatives := by
    refine ⟨[Joint.inter.join us], h.alternatives, ?_⟩
    rw [Joint.normalParts_singleton, Joint.normal_join_eq hnormal]
  factors _ := ⟨us, h, hnormal⟩
  operand htight := absurd hloose (htight ▸ Bool.false_ne_true)

theorem ReadsBack.of_operand (h : ReadsOperand ts u) (hnormal : u.normal = t.normal) :
    t.ReadsBack ts where
  alternatives := by
    refine ⟨[u], h.factors.alternatives, ?_⟩
    rw [Joint.normalParts_singleton, hnormal]
  factors _ := by
    refine ⟨[u], h.factors, ?_⟩
    rw [Joint.normalParts_singleton, hnormal]
  operand _ := ⟨u, h, hnormal⟩

theorem ReadsBack.type (h : t.ReadsBack ts) : ∃ u, ReadsType ts u ∧ u.normal = t.normal := by
  obtain ⟨us, hread, hnormal⟩ := h.alternatives
  exact ⟨_, hread.type, Joint.normal_join_eq hnormal⟩

/-- The text of a type is read as that type up to its normal form. -/
def TextReadsBack (t : Ty) (s : String) : Prop :=
  ∃ ts, Lexes s.toList ts ∧ t.ReadsBack ts

theorem lexes_parenthesized {s : String} (h : Lexes s.toList ts) :
    Lexes (parenthesized s).toList (.mark '(' :: (ts ++ [.mark ')'])) := by
  have hchars : (parenthesized s).toList = '(' :: (s.toList ++ [')']) := by
    rw [parenthesized, String.toList_append, String.toList_append]
    rfl
  have hclosing : Lexes [')'] [.mark ')'] := lexes_nil.mark_cons (by decide)
  rw [hchars]
  exact (h.append hclosing (by decide)).mark_cons (by decide)

/-- In parentheses a type is an operand. -/
theorem TextReadsBack.parenthesized {s : String} (h : t.TextReadsBack s) :
    ∃ ts u, Lexes (parenthesized s).toList ts ∧ ReadsOperand ts u ∧ u.normal = t.normal := by
  obtain ⟨ts, hlexes, hreads⟩ := h
  obtain ⟨u, hread, hnormal⟩ := hreads.type
  exact ⟨_, u, lexes_parenthesized hlexes, hread.parenthesized.operand, hnormal⟩

end Ty

/-! ## Words, numbers and texts -/

section

variable {w name : String} {t u : Ty}

theorem Ty.textReadsBack_named (h : IsTypeName name) : (Ty.named name).TextReadsBack name := by
  obtain ⟨w, ws, rfl, hws, hkeyword, hoperator⟩ := h
  obtain ⟨hw, hrest⟩ := List.forall_mem_cons.1 hws
  have hread := readsPrimary_path (pathType?_of_isTypeName hws hkeyword hoperator)
  refine ⟨_, lexes_path (isPlainKey_of_isIdentifier hw) fun v hv ↦ ?_,
    .of_operand hread.operand rfl⟩
  exact isPlainKey_of_isIdentifier (hrest v hv)

theorem Ty.textReadsBack_word (hw : isPlainKey w) (h : pathType? w [] = some u)
    (hnormal : u.normal = t.normal) : t.TextReadsBack w :=
  ⟨_, lexes_word hw, .of_operand (readsPrimary_path h).operand hnormal⟩

theorem Ty.textReadsBack_keyword (k : Keyword) : (Ty.keyword k).TextReadsBack k.render := by
  have hpath : pathType? k.render [] = some (.keyword k) := by cases k <;> rfl
  exact textReadsBack_word (by cases k <;> decide) hpath rfl

/-- The double in a literal is one. -/
def Literal.IsValid : Literal → Prop
  | .num n => n.IsValid
  | _ => True

theorem Ty.textReadsBack_literal {l : Literal} (h : l.IsValid) :
    (Ty.literal l).TextReadsBack l.render := by
  cases l with
  | str s =>
    have hread : ReadsPrimary [.text s] (.literal (.str s)) := by
      intro rest _
      rw [List.singleton_append, Leaves, readPrimary]
      rfl
    exact ⟨_, lexes_quote s, .of_operand hread.operand rfl⟩
  | num n =>
    have hread : ReadsPrimary [.number n] (.literal (.num n)) := by
      intro rest _
      rw [List.singleton_append, Leaves, readPrimary]
      rfl
    exact ⟨_, lexes_number h, .of_operand hread.operand rfl⟩
  | bool b =>
    cases b with
    | true => exact textReadsBack_word (u := .literal (.bool true)) (by decide) rfl rfl
    | false => exact textReadsBack_word (u := .literal (.bool false)) (by decide) rfl rfl
  | null =>
    refine textReadsBack_word (u := .keyword .null) (by decide) rfl ?_
    rw [normal, normal, Literal.normal]

end

/-! ## Types made of types -/

theorem renderTypes_eq (ts : List Ty) : renderTypes ts = ts.map Ty.render := by
  induction ts with
  | nil => rw [renderTypes, List.map_nil]
  | cons t ts ih => rw [renderTypes, ih, List.map_cons]

/-- The text of a member of an intersection. -/
def Ty.renderFactor (t : Ty) : String :=
  if t.isWideUnion then parenthesized t.render else t.render

theorem renderFactors_eq (ts : List Ty) : renderFactors ts = ts.map Ty.renderFactor := by
  induction ts with
  | nil => rw [renderFactors, List.map_nil]
  | cons t ts ih =>
    rw [renderFactors, ih, List.map_cons]
    rfl

namespace Ty

variable {t : Ty} {ts : List Ty} {s : String}

theorem lexes_brackets : Lexes ['[', ']'] [.mark '[', .mark ']'] :=
  (lexes_nil.mark_cons (by decide)).mark_cons (by decide)

theorem TextReadsBack.array (h : t.TextReadsBack s) :
    (Ty.array t).TextReadsBack ((if t.isLoose then TypeScript.parenthesized s else s) ++ "[]") := by
  have hitem : ∃ tokens u,
      Lexes (if t.isLoose then TypeScript.parenthesized s else s).toList tokens ∧
      ReadsOperand tokens u ∧ u.normal = t.normal := by
    split
    next => exact h.parenthesized
    next hloose =>
      obtain ⟨tokens, hlexes, hreads⟩ := h
      obtain ⟨u, hread, hnormal⟩ := hreads.operand (Bool.eq_false_iff.2 hloose)
      exact ⟨tokens, u, hlexes, hread, hnormal⟩
  obtain ⟨tokens, u, hlexes, hread, hnormal⟩ := hitem
  refine ⟨_, ?_, .of_operand hread.array ?_⟩
  · rw [String.toList_append]
    exact hlexes.append lexes_brackets (by decide)
  · rw [Ty.normal, Ty.normal, hnormal]

/-- Types that are read from their texts are read from these texts with an operator in between. -/
theorem exists_joined {Reads : List Token → List Ty → Prop} {f : Ty → String} {sep : String}
    {c : Char} (j : Joint) (hsep : sep.toList = [' ', c, ' ']) (hc : c ∈ typeMarks)
    (happend : ∀ {tokens tokens' us us'}, Reads tokens us → Reads tokens' us' →
      Reads (tokens ++ .mark c :: tokens') (us ++ us')) (hne : ts ≠ [])
    (h : ∀ t ∈ ts, ∃ tokens us, Lexes (f t).toList tokens ∧ Reads tokens us ∧
      j.normalParts us = j.parts t.normal) :
    ∃ tokens us, Lexes (Text.join sep (ts.map f)).toList tokens ∧ Reads tokens us ∧
      j.normalParts us = j.normalParts ts := by
  induction ts with
  | nil => exact absurd rfl hne
  | cons t ts ih =>
    obtain ⟨⟨tokens, us, hlexes, hreads, hparts⟩, hrest⟩ := List.forall_mem_cons.1 h
    rw [← Joint.normalParts_singleton] at hparts
    cases ts with
    | nil => exact ⟨tokens, us, hlexes, hreads, hparts⟩
    | cons u ts =>
      obtain ⟨tokens', us', hlexes', hreads', hparts'⟩ := ih (List.cons_ne_nil u ts) hrest
      have hchars : (Text.join sep ((t :: u :: ts).map f)).toList =
          (f t).toList ++ ' ' :: c :: ' ' :: (Text.join sep ((u :: ts).map f)).toList := by
        simp only [List.map_cons]
        rw [Text.join_cons_cons, String.toList_append, String.toList_append, hsep,
          List.append_assoc]
        rfl
      refine ⟨_, _, ?_, happend hreads hreads', ?_⟩
      · rw [hchars]
        exact hlexes.append (hlexes'.blank_cons.mark_cons hc).blank_cons (by decide)
      · rw [Joint.normalParts_append, hparts, hparts', ← Joint.normalParts_append,
          List.singleton_append]

theorem textReadsBack_union (hlength : ts.length ≠ 1) (h : ∀ t ∈ ts, t.TextReadsBack t.render) :
    (Ty.union ts).TextReadsBack (Ty.union ts).render := by
  match ts, hlength with
  | [], _ =>
    rw [Ty.render]
    exact textReadsBack_word (u := .union []) (by decide) rfl rfl
  | t :: u :: ts, _ =>
    have hne : t :: u :: ts ≠ [] := List.cons_ne_nil _ _
    have hsep : " | ".toList = [' ', '|', ' '] := rfl
    obtain ⟨tokens, us, hlexes, hreads, hparts⟩ :=
      exists_joined .union hsep (by decide) ReadsAlternatives.append hne fun t ht ↦ by
        obtain ⟨tokens, hlexes, hreads⟩ := h t ht
        obtain ⟨us, hread, hparts⟩ := hreads.alternatives
        exact ⟨tokens, us, hlexes, hread, hparts⟩
    rw [Ty.render, renderTypes_eq]
    refine ⟨tokens, hlexes, ?_, fun hwide ↦ ?_, fun htight ↦ ?_⟩
    · exact ⟨us, hreads, hparts.trans (Joint.parts_normal_make hne).symm⟩
    · cases hwide
    · cases htight

theorem TextReadsBack.factor (h : t.TextReadsBack t.render) :
    ∃ tokens us, Lexes t.renderFactor.toList tokens ∧ ReadsFactors tokens us ∧
      Joint.inter.normalParts us = Joint.inter.parts t.normal := by
  unfold renderFactor
  split
  next =>
    obtain ⟨tokens, u, hlexes, hread, hnormal⟩ := h.parenthesized
    refine ⟨tokens, [u], hlexes, hread.factors, ?_⟩
    rw [Joint.normalParts_singleton, hnormal]
  next hwide =>
    obtain ⟨tokens, hlexes, hreads⟩ := h
    obtain ⟨us, hread, hparts⟩ := hreads.factors (Bool.eq_false_iff.2 hwide)
    exact ⟨tokens, us, hlexes, hread, hparts⟩

theorem textReadsBack_inter (h : ∀ t ∈ ts, t.TextReadsBack t.render) :
    (Ty.inter ts).TextReadsBack (Ty.inter ts).render := by
  cases ts with
  | nil =>
    rw [Ty.render]
    exact textReadsBack_word (u := .inter []) (by decide) rfl rfl
  | cons t ts =>
    have hne : t :: ts ≠ [] := List.cons_ne_nil t ts
    have hsep : " & ".toList = [' ', '&', ' '] := rfl
    obtain ⟨tokens, us, hlexes, hreads, hparts⟩ :=
      exists_joined .inter hsep (by decide) ReadsFactors.append hne fun t ht ↦ (h t ht).factor
    rw [Ty.render, renderFactors_eq]
    exact ⟨tokens, hlexes, .of_factors hreads (hparts.trans (Joint.parts_normal_make hne).symm) rfl⟩

/-- The types of a tuple are read up to the closing bracket. -/
theorem exists_items (h : ∀ t ∈ ts, t.TextReadsBack t.render) :
    ∃ tokens us, Lexes ((Text.join ", " (renderTypes ts)).toList ++ [']']) tokens ∧
      (∀ rest, Leaves (readItems (tokens ++ rest)) us rest) ∧
      us.map normal = ts.map normal := by
  induction ts with
  | nil =>
    refine ⟨[.mark ']'], [], lexes_nil.mark_cons (by decide), fun rest ↦ ?_, rfl⟩
    rw [List.singleton_append, Leaves, readItems, expect?_self]
    rfl
  | cons t ts ih =>
    obtain ⟨⟨tokens, hlexes, hreads⟩, hrest⟩ := List.forall_mem_cons.1 h
    obtain ⟨u, hread, hnormal⟩ := hreads.type
    rw [renderTypes]
    cases ts with
    | nil =>
      have hclosing : Lexes [']'] [.mark ']'] := lexes_nil.mark_cons (by decide)
      refine ⟨_, [u], hlexes.append hclosing (by decide), fun rest ↦ ?_, ?_⟩
      · have hend : NotFirst ['.', '[', '&', '|'] ([.mark ']'] ++ rest) :=
          notFirst_mark (by decide) rest
        obtain ⟨_, htype⟩ := (hread _ hend).exists_eq
        rw [List.append_assoc, Leaves, readItems, hread.expect?_eq_none (by decide) hend]
        dsimp only
        rw [htype]
        rfl
      · rw [List.map_singleton, List.map_singleton, hnormal]
    | cons t' ts =>
      obtain ⟨tokens', us, hlexes', hread', hnormal'⟩ := ih hrest
      refine ⟨tokens ++ .mark ',' :: tokens', u :: us, ?_, fun rest ↦ ?_, ?_⟩
      · rw [renderTypes, Text.join_cons_cons, String.toList_append, String.toList_append,
          List.append_assoc, List.append_assoc, ← renderTypes]
        exact hlexes.append (hlexes'.blank_cons.mark_cons (by decide)) (by decide)
      · have hend : NotFirst ['.', '[', '&', '|'] (.mark ',' :: (tokens' ++ rest)) :=
          notFirst_mark (by decide) _
        obtain ⟨_, htype⟩ := (hread _ hend).exists_eq
        obtain ⟨_, hitems⟩ := (hread' rest).exists_eq
        rw [List.append_assoc, List.cons_append, Leaves, readItems,
          hread.expect?_eq_none (by decide) hend]
        dsimp only
        rw [htype, Option.bind_eq_bind, Option.bind_some]
        dsimp only
        rw [expect?_self]
        dsimp only
        rw [hitems]
        rfl
      · rw [List.map_cons, hnormal, hnormal']
        rfl

theorem textReadsBack_tuple (h : ∀ t ∈ ts, t.TextReadsBack t.render) :
    (Ty.tuple ts).TextReadsBack (Ty.tuple ts).render := by
  obtain ⟨tokens, us, hlexes, hread, hnormal⟩ := exists_items h
  have hprimary : ReadsPrimary (.mark '[' :: tokens) (.tuple us) := by
    intro rest _
    obtain ⟨_, hread⟩ := (hread rest).exists_eq
    rw [List.cons_append, Leaves, readPrimary, hread]
    rfl
  refine ⟨_, ?_, .of_operand hprimary.operand ?_⟩
  · rw [Ty.render, String.toList_append, String.toList_append, List.append_assoc]
    exact hlexes.mark_cons (by decide)
  · rw [Ty.normal, Ty.normal, normalTypes_eq, normalTypes_eq, hnormal]

end Ty

/-! ## Objects -/

/-- What stands behind the opening brace, when each part has a blank in front of it. -/
def bracedRest (parts : List String) : List Char :=
  parts.flatMap (fun s ↦ ' ' :: s.toList) ++ [' ', '\x7d']

theorem bracedRest_cons (s : String) (parts : List String) :
    bracedRest (s :: parts) = ' ' :: (s.toList ++ bracedRest parts) := by
  rw [bracedRest, List.flatMap_cons, List.append_assoc]
  rfl

theorem flatMap_blank {parts : List String} (hne : parts ≠ []) :
    parts.flatMap (fun s ↦ ' ' :: s.toList) = ' ' :: (Text.join " " parts).toList := by
  induction parts with
  | nil => exact absurd rfl hne
  | cons s parts ih =>
    cases parts with
    | nil => simp
    | cons t parts =>
      rw [List.flatMap_cons, ih (List.cons_ne_nil t parts), Text.join_cons_cons,
        String.toList_append, String.toList_append, List.append_assoc]
      rfl

theorem braced_toList {parts : List String} (hne : parts ≠ []) :
    (braced " " parts).toList = '\x7b' :: bracedRest parts := by
  rw [bracedRest, flatMap_blank hne]
  obtain ⟨s, parts, rfl⟩ := List.exists_cons_of_ne_nil hne
  rw [braced.eq_2 _ _ hne, String.toList_append, String.toList_append]
  rfl

/-- The token of the name of a member. -/
def keyToken (name : String) : Token :=
  if isPlainKey name then .word name else .text name

theorem lexes_propertyKey (name : String) : Lexes (propertyKey name).toList [keyToken name] := by
  unfold propertyKey keyToken
  split
  next h => exact lexes_word h
  next => exact lexes_quote name

theorem keyToken_eq (name : String) :
    keyToken name = .word name ∨ keyToken name = .text name := by
  unfold keyToken
  split
  next => exact .inl rfl
  next => exact .inr rfl

theorem readName?_key (name : String) (optional : Bool) (rest : List Token) :
    ∃ h, readName? (keyToken name ::
      ((if optional then [.mark '?'] else []) ++ .mark ':' :: rest)) =
        some (name, optional, ⟨rest, h⟩) := by
  rcases keyToken_eq name with hkey | hkey <;> rw [hkey] <;> cases optional <;>
    exact ⟨by grind, rfl⟩

theorem readIndexKey?_key (name : String) (rest : List Token) :
    expect? '\x7d' (keyToken name :: rest) = none ∧
      readIndexKey? (keyToken name :: rest) = none := by
  rcases keyToken_eq name with hkey | hkey <;> rw [hkey] <;> exact ⟨rfl, rfl⟩

namespace Ty

variable {t : Ty} {ms : List (Member Ty)} {index : Option Ty}

/-- The type of all other members is read up to the closing brace. -/
theorem exists_index (h : ∀ t ∈ index, t.TextReadsBack t.render) :
    ∃ tokens u, Lexes (bracedRest (renderIndex index)) tokens ∧
      (∀ rest, Leaves (readMembers (tokens ++ rest)) ([], u) rest) ∧
      normalIndex u = normalIndex index := by
  have hclosing : Lexes [' ', '\x7d'] [.mark '\x7d'] := (lexes_nil.mark_cons (by decide)).blank_cons
  cases index with
  | none =>
    refine ⟨[.mark '\x7d'], none, ?_, fun rest ↦ ?_, rfl⟩
    · rw [renderIndex]
      exact hclosing
    · rw [List.singleton_append, Leaves, readMembers, expect?_self]
      rfl
  | some t =>
    obtain ⟨tokens, hlexes, hreads⟩ := h t rfl
    obtain ⟨u, hread, hnormal⟩ := hreads.type
    have hchars : bracedRest (renderIndex (some t)) = ' ' :: '[' :: ("key".toList ++ ':' :: ' ' ::
        ("string".toList ++ ']' :: ':' :: ' ' :: (t.render.toList ++ ';' :: [' ', '\x7d']))) := by
      rw [renderIndex, bracedRest_cons, String.toList_append, String.toList_append,
        List.append_assoc, List.append_assoc]
      rfl
    have htype := hlexes.append (hclosing.mark_cons (c := ';') (by decide)) (by decide)
    have hstring := (lexes_word (w := "string") (by decide)).append
      ((htype.blank_cons.mark_cons (c := ':') (by decide)).mark_cons (c := ']') (by decide))
      (by decide)
    have hkey := (lexes_word (w := "key") (by decide)).append
      (hstring.blank_cons.mark_cons (c := ':') (by decide)) (by decide)
    refine ⟨_, some u, hchars ▸ (hkey.mark_cons (by decide)).blank_cons, fun rest ↦ ?_, ?_⟩
    · have hbrace (ts : List Token) : expect? '\x7d' (.mark '[' :: ts) = none := rfl
      have hindex (ts : List Token) : readIndexKey? (.mark '[' :: .word "key" :: .mark ':' ::
          .word "string" :: .mark ']' :: .mark ':' :: ts) =
            some ⟨ts, Nat.lt_add_of_pos_right (Nat.succ_pos 5)⟩ := rfl
      obtain ⟨_, htype⟩ :=
        (hread _ (notFirst_mark (c := ';') (by decide) (.mark '\x7d' :: rest))).exists_eq
      have hassoc : tokens ++ [.mark ';', .mark '\x7d'] ++ rest =
          tokens ++ .mark ';' :: .mark '\x7d' :: rest := List.append_assoc tokens _ rest
      change Leaves (readMembers (.mark '[' :: .word "key" :: .mark ':' :: .word "string" ::
        .mark ']' :: .mark ':' :: (tokens ++ [.mark ';', .mark '\x7d'] ++ rest))) _ _
      rw [hassoc, Leaves, readMembers, hbrace]
      dsimp only
      rw [hindex]
      dsimp only
      rw [htype]
      rfl
    · rw [normalIndex, normalIndex, hnormal]

theorem exists_members (hms : ∀ m ∈ ms, m.type.TextReadsBack m.type.render)
    (hindex : ∀ t ∈ index, t.TextReadsBack t.render) :
    ∃ tokens us u, Lexes (bracedRest (renderMembers ms ++ renderIndex index)) tokens ∧
      (∀ rest, Leaves (readMembers (tokens ++ rest)) (us, u) rest) ∧
      normalMembers us = normalMembers ms ∧ normalIndex u = normalIndex index := by
  induction ms with
  | nil =>
    obtain ⟨tokens, u, hlexes, hread, hnormal⟩ := exists_index hindex
    rw [renderMembers, List.nil_append]
    exact ⟨tokens, [], u, hlexes, hread, rfl, hnormal⟩
  | cons m ms ih =>
    obtain ⟨⟨tokens, hlexes, hreads⟩, hrest⟩ := List.forall_mem_cons.1 hms
    obtain ⟨u, hread, hnormal⟩ := hreads.type
    obtain ⟨tokens', us, v, hlexes', hread', hnormals, hindexes⟩ := ih hrest
    refine ⟨keyToken m.name :: ((if m.optional then [.mark '?'] else []) ++ .mark ':' ::
      (tokens ++ .mark ';' :: tokens')), ⟨m.name, u, m.optional⟩ :: us, v, ?_, fun rest ↦ ?_, ?_,
      hindexes⟩
    · have htype := hlexes.append (hlexes'.mark_cons (c := ';') (by decide)) (by decide)
      have hcolon := htype.blank_cons.mark_cons (c := ':') (by decide)
      have hkey := lexes_propertyKey m.name
      rw [renderMembers, List.cons_append, bracedRest_cons]
      refine Lexes.blank_cons ?_
      simp only [String.toList_append, List.append_assoc]
      cases m.optional with
      | true => exact hkey.append (hcolon.mark_cons (by decide)) (by decide)
      | false => exact hkey.append hcolon (by decide)
    · obtain ⟨hbrace, hindex⟩ := readIndexKey?_key m.name
        ((if m.optional then [.mark '?'] else []) ++ .mark ':' ::
          (tokens ++ .mark ';' :: (tokens' ++ rest)))
      obtain ⟨_, hname⟩ :=
        readName?_key m.name m.optional (tokens ++ .mark ';' :: (tokens' ++ rest))
      obtain ⟨_, htype⟩ :=
        (hread _ (notFirst_mark (c := ';') (by decide) (tokens' ++ rest))).exists_eq
      obtain ⟨_, hmembers⟩ := (hread' rest).exists_eq
      have hassoc : keyToken m.name :: ((if m.optional then [.mark '?'] else []) ++ .mark ':' ::
          (tokens ++ .mark ';' :: tokens')) ++ rest =
            keyToken m.name :: ((if m.optional then [.mark '?'] else []) ++ .mark ':' ::
              (tokens ++ .mark ';' :: (tokens' ++ rest))) := by
        simp only [List.cons_append, List.append_assoc]
      rw [hassoc, Leaves, readMembers, hbrace]
      simp only [hindex, hname, htype, expect?_self, hmembers, Option.bind_eq_bind,
        Option.bind_some, Option.pure_def, Option.map_some]
    · rw [normalMembers, normalMembers, hnormal, hnormals]

theorem textReadsBack_object (hms : ∀ m ∈ ms, m.type.TextReadsBack m.type.render)
    (hindex : ∀ t ∈ index, t.TextReadsBack t.render) :
    (Ty.object ms index).TextReadsBack (Ty.object ms index).render := by
  obtain ⟨tokens, us, u, hlexes, hread, hnormals, hindexes⟩ := exists_members hms hindex
  have hprimary : ReadsPrimary (.mark '\x7b' :: tokens) (.object us u) := by
    intro rest _
    obtain ⟨_, hread⟩ := (hread rest).exists_eq
    rw [List.cons_append, Leaves, readPrimary, hread]
    rfl
  refine ⟨_, ?_, .of_operand hprimary.operand ?_⟩
  · rw [Ty.render]
    by_cases hnil : renderMembers ms ++ renderIndex index = []
    · rw [hnil] at hlexes ⊢
      exact (lexes_blank_cons_iff.1 hlexes).mark_cons (by decide)
    · rw [braced_toList hnil]
      exact hlexes.mark_cons (by decide)
  · rw [Ty.normal, Ty.normal, hnormals, hindexes]

end Ty

/-- The types that are written faithfully: no union has exactly one member, literals are valid and
the names of types are no words of the language. -/
inductive Ty.Printable : Ty → Prop where
  | keyword (k : Keyword) : Printable (.keyword k)
  | literal {l : Literal} (h : l.IsValid) : Printable (.literal l)
  | named {name : String} (h : IsTypeName name) : Printable (.named name)
  | array {t : Ty} (h : Printable t) : Printable (.array t)
  | tuple {ts : List Ty} (h : ∀ t ∈ ts, Printable t) : Printable (.tuple ts)
  | union {ts : List Ty} (hlength : ts.length ≠ 1) (h : ∀ t ∈ ts, Printable t) :
    Printable (.union ts)
  | inter {ts : List Ty} (h : ∀ t ∈ ts, Printable t) : Printable (.inter ts)
  | object {ms : List (Member Ty)} {index : Option Ty} (hms : ∀ m ∈ ms, Printable m.type)
    (hindex : ∀ t ∈ index, Printable t) : Printable (.object ms index)

theorem Ty.Printable.textReadsBack {t : Ty} (h : t.Printable) : t.TextReadsBack t.render := by
  induction h with
  | keyword k =>
    rw [Ty.render]
    exact textReadsBack_keyword k
  | literal h =>
    rw [Ty.render]
    exact textReadsBack_literal h
  | named h =>
    rw [Ty.render]
    exact textReadsBack_named h
  | array _ ih =>
    rw [Ty.render]
    exact ih.array
  | tuple _ ih => exact textReadsBack_tuple ih
  | union hlength _ ih => exact textReadsBack_union hlength ih
  | inter _ ih => exact textReadsBack_inter ih
  | object _ _ hms hindex => exact textReadsBack_object hms hindex

/-- The text of a type is read as that type up to its normal form. -/
theorem Ty.Printable.exists_read {t : Ty} (h : t.Printable) :
    ∃ u, Ty.read t.render = some u ∧ u.normal = t.normal := by
  obtain ⟨ts, hlexes, hreads⟩ := h.textReadsBack
  obtain ⟨u, hread, hnormal⟩ := hreads.type
  have hleaves := hread [] (by simp [NotFirst])
  rw [List.append_nil] at hleaves
  obtain ⟨_, hend⟩ := hleaves.exists_eq
  refine ⟨u, ?_, hnormal⟩
  rw [Ty.read, hlexes.lex_eq, Option.bind_eq_bind, Option.bind_some, hend]
  rfl

/-- Types are written faithfully: the text of a type is read as that type up to its normal form, so
types with different normal forms have different texts. -/
theorem types_read_back :
    (∀ t : Ty, t.Printable → ∃ u, Ty.read t.render = some u ∧ u.normal = t.normal) ∧
      ∀ t t' : Ty, t.Printable → t'.Printable → t.normal ≠ t'.normal → t.render ≠ t'.render := by
  refine ⟨fun t h ↦ h.exists_read, fun t t' h h' hne heq ↦ hne ?_⟩
  obtain ⟨u, hread, hnormal⟩ := h.exists_read
  obtain ⟨u', hread', hnormal'⟩ := h'.exists_read
  rw [heq, hread'] at hread
  rw [← hnormal, ← hnormal', Option.some_inj.1 hread]

/-- A list of what is a pet with a rating or nothing. -/
def ratedPets : Ty :=
  .array (.inter [.union [.named "Pets.Pet", .literal .null],
    .object [⟨"max-rating", .literal (.num (.real ⟨false, 0x1999999999999a, -56⟩)), true⟩]
      (some (.tuple [.keyword .any]))])

/-- The same types with the brackets and the joints in other places. -/
def petsOrRatings : Ty :=
  .union [.named "Pets.Pet", .array (.inter [.literal .null, .object [] none])]

theorem rated_pets_read_back : ratedPets.Printable ∧ petsOrRatings.Printable ∧
    ratedPets.normal ≠ petsOrRatings.normal ∧
      (∃ u, Ty.read ratedPets.render = some u ∧ u.normal = ratedPets.normal) ∧
        ratedPets.render ≠ petsOrRatings.render := by
  have hname : IsTypeName "Pets.Pet" :=
    ⟨"Pets", ["Pet"], by decide, by decide, by decide, by decide⟩
  have hrating : Binary64.IsDouble ⟨false, 0x1999999999999a, -56⟩ :=
    ⟨by decide, by decide, by decide, by decide⟩
  have hpair {t u : Ty} (ht : t.Printable) (hu : u.Printable) : ∀ v ∈ [t, u], v.Printable :=
    List.forall_mem_cons.2 ⟨ht, List.forall_mem_singleton.2 hu⟩
  have hrated : ratedPets.Printable := by
    refine .array (.inter (hpair (.union (by decide) ?_) (.object ?_ ?_)))
    · exact hpair (.named hname) (.literal trivial)
    · exact List.forall_mem_singleton.2 (.literal hrating)
    · rintro t ⟨⟩
      exact .tuple (List.forall_mem_singleton.2 (.keyword .any))
  have hratings : petsOrRatings.Printable := by
    refine .union (by decide) (hpair (.named hname) (.array (.inter ?_)))
    exact hpair (.literal trivial) (.object (by simp) (by simp))
  have hnormal : ratedPets.normal ≠ petsOrRatings.normal := by
    intro h
    cases h
  exact ⟨hrated, hratings, hnormal, types_read_back.1 _ hrated,
    types_read_back.2 _ _ hrated hratings hnormal⟩

end ApiClient.TypeScript
