import ApiClient.Proofs.TypeScript.Literals
import ApiClient.Proofs.TypeScript.Spelled

/-!
# Reading templates back

A template is written part by part. What is written stands for the texts of the template and for the
values of its expressions, in order, unless a text that ends in a dollar sign meets a text that
begins with a brace: each of them is written as it is, and the two together open a hole. A template
without expressions is written as a text in quotes, where nothing of the kind can happen.
-/

namespace ApiClient.TypeScript

/-- What the parts of a template stand for. -/
def itemsOf (parts : List (TemplatePart Expr)) : List Item :=
  parts.flatMap fun part ↦
    match part with
    | .text s => s.toList.map .char
    | .hole e => [.hole e.render.toList]

@[simp] theorem itemsOf_nil : itemsOf [] = [] := rfl

@[simp] theorem itemsOf_text (s : String) (parts : List (TemplatePart Expr)) :
    itemsOf (.text s :: parts) = s.toList.map .char ++ itemsOf parts := rfl

@[simp] theorem itemsOf_hole (e : Expr) (parts : List (TemplatePart Expr)) :
    itemsOf (.hole e :: parts) = .hole e.render.toList :: itemsOf parts := rfl

/-! ## Holes -/

theorem readFrom_code {frames : List Frame} {code : List Char} (hframes : frames ≠ [])
    (h : Frame.run frames code = some [.brace]) (rest : List Char) :
    readFrom (.code frames) (code ++ '\x7d' :: rest) =
      (readFrom (.inside .back) rest).map (.hole code :: ·) := by
  induction code generalizing frames with
  | nil =>
    cases h
    rfl
  | cons c code ih =>
    rw [Frame.run_cons] at h
    obtain ⟨inner, hstep, h⟩ := Option.bind_eq_some_iff.1 h
    have hinner : inner ≠ [] := by
      rintro rfl
      cases code <;> cases h
    obtain ⟨frame, inner, rfl⟩ := List.exists_cons_of_ne_nil hinner
    rw [List.cons_append, readFrom, hstep]
    dsimp only
    rw [ih hinner h, Option.map_map]
    rfl

theorem readFrom_hole {code : List Char} (h : Frame.run [.brace] code = some [.brace])
    (rest : List Char) : readFrom (.inside .back) ('$' :: '\x7b' :: (code ++ '\x7d' :: rest)) =
      (readFrom (.inside .back) rest).map (.hole code :: ·) :=
  readFrom_code (List.cons_ne_nil _ _) h rest

/-- What is read in a hole begins with the hole. -/
theorem hole_of_readFrom_code {frames : List Frame} {cs : List Char} {items : List Item}
    (h : readFrom (.code frames) cs = some items) : ∃ code rest, items = .hole code :: rest := by
  induction cs generalizing frames items with
  | nil => cases h
  | cons c cs ih =>
    rw [readFrom] at h
    split at h
    · cases h
    · obtain ⟨rest, -, rfl⟩ := Option.map_eq_some_iff.1 h
      exact ⟨[], rest, rfl⟩
    · obtain ⟨inner, hinner, rfl⟩ := Option.map_eq_some_iff.1 h
      obtain ⟨code, rest, rfl⟩ := ih hinner
      exact ⟨c :: code, rest, rfl⟩

/-! ## Texts -/

theorem readFrom_escapeTemplateChar {c : Char} {next : Option Char} {rest : List Char}
    (hreturn : c ≠ '\r') (hnext : c = '$' → rest.head? = some '\x7b' → next = some '\x7b') :
    readFrom (.inside .back) (escapeTemplateChar c next ++ rest) =
      (readFrom (.inside .back) rest).map (.char c :: ·) := by
  by_cases hbackslash : c = '\\'
  · subst hbackslash
    rfl
  by_cases hquote : c = '\x60'
  · subst hquote
    rfl
  by_cases hhole : c = '$' ∧ next = some '\x7b'
  · obtain ⟨rfl, rfl⟩ := hhole
    rfl
  · have hself : escapeTemplateChar c next = [c] := by
      rw [escapeTemplateChar, if_neg hbackslash, if_neg hquote, if_neg (by simpa using hhole)]
    have hback : c ≠ Quote.back.char := hquote
    have hopening : ¬(c = '$' ∧ rest.head? = some '\x7b') := fun h ↦
      hhole ⟨h.1, hnext h.1 h.2⟩
    rw [hself, List.singleton_append, readFrom, if_neg hback, if_neg hbackslash]
    simp only [if_neg hopening, if_neg hreturn]

theorem head?_escapeTemplate (cs rest : List Char) :
    (escapeTemplate cs ++ rest).head? = some '\x7b' ↔
      (cs = [] ∧ rest.head? = some '\x7b') ∨ cs.head? = some '\x7b' := by
  cases cs with
  | nil => simp [escapeTemplate]
  | cons c cs =>
    rw [escapeTemplate, List.append_assoc]
    unfold escapeTemplateChar
    grind

theorem readFrom_escapeTemplate {cs rest : List Char} (hreturn : '\r' ∉ cs)
    (hmeet : ¬(cs.getLast? = some '$' ∧ rest.head? = some '\x7b')) :
    readFrom (.inside .back) (escapeTemplate cs ++ rest) =
      (readFrom (.inside .back) rest).map (cs.map .char ++ ·) := by
  induction cs with
  | nil => simp [escapeTemplate]
  | cons c cs ih =>
    rw [List.mem_cons, not_or] at hreturn
    have hrest : ¬(cs.getLast? = some '$' ∧ rest.head? = some '\x7b') := by
      rintro ⟨hlast, hbrace⟩
      refine hmeet ⟨?_, hbrace⟩
      rw [List.getLast?_cons, hlast]
      rfl
    have hnext : c = '$' → (escapeTemplate cs ++ rest).head? = some '\x7b' →
        cs.head? = some '\x7b' := by
      rintro rfl hbrace
      rcases (head?_escapeTemplate cs rest).1 hbrace with ⟨rfl, hbrace⟩ | hbrace
      · exact absurd ⟨rfl, hbrace⟩ hmeet
      · exact hbrace
    rw [escapeTemplate, List.append_assoc, readFrom_escapeTemplateChar (Ne.symm hreturn.1) hnext,
      ih hreturn.2 hrest, Option.map_map]
    rfl

theorem escapeTemplate_concat (cs : List Char) :
    escapeTemplate (cs ++ ['$']) = escapeTemplate cs ++ ['$'] := by
  induction cs with
  | nil => rfl
  | cons c cs ih =>
    have hchar : escapeTemplateChar c (cs ++ ['$']).head? = escapeTemplateChar c cs.head? := by
      cases cs with
      | nil => simp [escapeTemplateChar]
      | cons d cs => rfl
    rw [List.cons_append, escapeTemplate, ih, hchar, escapeTemplate, List.append_assoc]

/-- A dollar sign and a brace behind it are not read as characters, even if they come from two
texts. -/
theorem readFrom_seam {cs rest : List Char} (hreturn : '\r' ∉ cs)
    (hlast : cs.getLast? = some '$') (hbrace : rest.head? = some '\x7b') (items : List Item) :
    readFrom (.inside .back) (escapeTemplate cs ++ rest) ≠ some (cs.map .char ++ items) := by
  obtain ⟨before, rfl⟩ := List.getLast?_eq_some_iff.1 hlast
  obtain ⟨code, rfl⟩ := List.head?_eq_some_iff.1 hbrace
  rw [List.mem_append, not_or] at hreturn
  intro h
  rw [escapeTemplate_concat, List.append_assoc,
    readFrom_escapeTemplate hreturn.1 (by simp)] at h
  obtain ⟨read, hread, heq⟩ := Option.map_eq_some_iff.1 h
  obtain ⟨hole, more, rfl⟩ := @hole_of_readFrom_code [.brace] _ _ hread
  rw [List.map_append, List.append_assoc] at heq
  cases List.append_cancel_left heq

/-! ## Templates -/

theorem seamless_true_iff (parts : List (TemplatePart Expr)) : seamless true parts ↔
    (renderParts parts).toList.head? ≠ some '\x7b' ∧ seamless false parts := by
  induction parts with
  | nil => simp [seamless, renderParts]
  | cons part parts ih =>
    cases part with
    | hole e => simp [seamless, renderParts]
    | text s =>
      have hhead := head?_escapeTemplate s.toList (renderParts parts).toList
      rw [renderParts, String.toList_append, String.toList_ofList, ne_eq, hhead]
      cases hs : s.toList with
      | nil => simpa [seamless, hs] using ih
      | cons c cs => simp [seamless, hs, List.getLast?_cons]

theorem map_append_eq_some_iff {before items : List Item} {read : Option (List Item)} :
    read.map (before ++ ·) = some (before ++ items) ↔ read = some items := by
  simp [Option.map_eq_some_iff]

theorem readFrom_renderParts_iff {parts : List (TemplatePart Expr)}
    (htexts : ∀ s, .text s ∈ parts → '\r' ∉ s.toList)
    (hholes : ∀ e, .hole e ∈ parts → Enclosed e.render) :
    readFrom (.inside .back) ((renderParts parts).toList ++ ['\x60']) = some (itemsOf parts) ↔
      seamless false parts := by
  induction parts with
  | nil => exact iff_of_true rfl rfl
  | cons part parts ih =>
    have hrest := ih (fun s hs ↦ htexts s (List.mem_cons_of_mem _ hs))
      fun e he ↦ hholes e (List.mem_cons_of_mem _ he)
    cases part with
    | hole e =>
      have hcode : Frame.run [.brace] e.render.toList = some [.brace] := hholes e List.mem_cons_self
      have hwritten : (renderParts (.hole e :: parts)).toList ++ ['\x60'] = '$' :: '\x7b' ::
          (e.render.toList ++ '\x7d' :: ((renderParts parts).toList ++ ['\x60'])) := by
        simp [renderParts]
      rw [hwritten, readFrom_hole hcode, itemsOf_hole, seamless, ← hrest]
      exact @map_append_eq_some_iff [.hole e.render.toList] _ _
    | text s =>
      have hreturn := htexts s List.mem_cons_self
      rw [renderParts, String.toList_append, String.toList_ofList, List.append_assoc, itemsOf_text,
        seamless, Bool.false_and, Bool.not_false, Bool.true_and]
      by_cases hlast : s.toList.getLast? = some '$'
      · have hflag : s.toList.getLast?.elim false (· == '$') = true := by rw [hlast]; rfl
        rw [hflag, seamless_true_iff]
        by_cases hbrace : (renderParts parts).toList.head? = some '\x7b'
        · have hhead : ((renderParts parts).toList ++ ['\x60']).head? = some '\x7b' := by
            rw [List.head?_append, hbrace]
            rfl
          exact iff_of_false (readFrom_seam hreturn hlast hhead _) fun h ↦ h.1 hbrace
        · have hhead : ((renderParts parts).toList ++ ['\x60']).head? ≠ some '\x7b' := by
            rw [List.head?_append]
            cases h : (renderParts parts).toList.head? <;> simp_all
          rw [readFrom_escapeTemplate hreturn fun h ↦ hhead h.2, map_append_eq_some_iff, hrest]
          exact ⟨fun h ↦ ⟨hbrace, h⟩, And.right⟩
      · have hflag : s.toList.getLast?.elim false (· == '$') = false := by
          cases h : s.toList.getLast? <;> simp_all
        rw [hflag, readFrom_escapeTemplate hreturn fun h ↦ hlast h.1, map_append_eq_some_iff,
          hrest]

theorem staticText?_eq_none_iff {parts : List (TemplatePart Expr)} :
    staticText? parts = none ↔ ∃ e, .hole e ∈ parts := by
  induction parts with
  | nil => simp [staticText?]
  | cons part parts ih => cases part <;> simp [staticText?, ih]

theorem itemsOf_of_staticText? {parts : List (TemplatePart Expr)} {s : String}
    (h : staticText? parts = some s) : itemsOf parts = s.toList.map .char := by
  induction parts generalizing s with
  | nil =>
    cases h
    rfl
  | cons part parts ih =>
    cases part with
    | hole e => cases h
    | text t =>
      obtain ⟨rest, hrest, rfl⟩ := Option.map_eq_some_iff.1 h
      rw [itemsOf_text, ih hrest, String.toList_append, List.map_append]

theorem readLiteral_of_static {parts : List (TemplatePart Expr)}
    (hstatic : ∀ e, .hole e ∉ parts) :
    readLiteral (Expr.template parts).render = some (itemsOf parts) := by
  rw [Expr.render]
  cases h : staticText? parts with
  | some s => rw [readLiteral_quote, itemsOf_of_staticText? h]
  | none =>
    obtain ⟨e, he⟩ := staticText?_eq_none_iff.1 h
    exact absurd he (hstatic e)

theorem readLiteral_of_hole {parts : List (TemplatePart Expr)} {e : Expr} (he : .hole e ∈ parts) :
    readLiteral (Expr.template parts).render =
      readFrom (.inside .back) ((renderParts parts).toList ++ ['\x60']) := by
  rw [Expr.render, staticText?_eq_none_iff.2 ⟨e, he⟩]
  dsimp only
  rw [readLiteral, String.append_assoc, String.toList_append, String.toList_append]
  rfl

theorem readLiteral_of_seamless {parts : List (TemplatePart Expr)}
    (htexts : ∀ s, .text s ∈ parts → '\r' ∉ s.toList)
    (hholes : ∀ e, .hole e ∈ parts → Enclosed e.render)
    (hseamless : seamless false parts) :
    readLiteral (Expr.template parts).render = some (itemsOf parts) := by
  by_cases hstatic : ∀ e, .hole e ∉ parts
  · exact readLiteral_of_static hstatic
  · obtain ⟨e, he⟩ := Classical.not_forall.1 hstatic
    rw [readLiteral_of_hole (Classical.not_not.1 he)]
    exact (readFrom_renderParts_iff htexts hholes).2 hseamless

/-- What a part of a template shows. -/
def partText (shown : Expr → String) : TemplatePart Expr → List Char
  | .text s => s.toList
  | .hole e => (shown e).toList

theorem mapM_text?_itemsOf {value : String → Option String} {shown : Expr → String}
    {parts : List (TemplatePart Expr)}
    (hvalue : ∀ e, .hole e ∈ parts → value e.render = some (shown e)) :
    ∃ texts, (itemsOf parts).mapM (Item.text? value) = some texts ∧
      texts.flatten = parts.flatMap (partText shown) := by
  induction parts with
  | nil => exact ⟨[], rfl, rfl⟩
  | cons part parts ih =>
    obtain ⟨texts, htexts, hflatten⟩ := ih fun e he ↦ hvalue e (List.mem_cons_of_mem _ he)
    cases part with
    | text s =>
      have hchars (cs : List Char) : (cs.map Item.char).mapM (Item.text? value) =
          some (cs.map fun c ↦ [c]) := by
        induction cs with
        | nil => rfl
        | cons c cs ih => simp [Item.text?, ih]
      refine ⟨(s.toList.map fun c ↦ [c]) ++ texts, ?_, ?_⟩
      · rw [itemsOf_text, List.mapM_append, hchars, htexts]
        rfl
      · have hself (cs : List Char) : (cs.map fun c ↦ [c]).flatten = cs := by
          induction cs with
          | nil => rfl
          | cons c cs ih => rw [List.map_cons, List.flatten_cons, ih, List.singleton_append]
        rw [List.flatten_append, hself, hflatten]
        rfl
    | hole e =>
      refine ⟨(shown e).toList :: texts, ?_, ?_⟩
      · simp [Item.text?, htexts, hvalue e List.mem_cons_self]
      · rw [List.flatten_cons, hflatten]
        rfl

/-- What is read as the parts of a template has the texts of the template and the values of its
expressions for its text. -/
theorem literalText_of_itemsOf {value : String → Option String} {shown : Expr → String} {s : String}
    {parts : List (TemplatePart Expr)} (hread : readLiteral s = some (itemsOf parts))
    (hvalue : ∀ e, .hole e ∈ parts → value e.render = some (shown e)) :
    literalText value s = some (String.ofList (parts.flatMap (partText shown))) := by
  obtain ⟨texts, htexts, hflatten⟩ := mapM_text?_itemsOf hvalue
  rw [literalText, hread, Option.bind_some, htexts, Option.map_some, hflatten]

/-- The text of a template is read as its texts and the values of its expressions, in order, if and
only if it has no expressions or no seam. -/
theorem readLiteral_template_iff {parts : List (TemplatePart Expr)}
    (htexts : ∀ s, .text s ∈ parts → '\r' ∉ s.toList)
    (hholes : ∀ e, .hole e ∈ parts → Enclosed e.render) :
    readLiteral (Expr.template parts).render = some (itemsOf parts) ↔
      (∀ e, .hole e ∉ parts) ∨ seamless false parts := by
  constructor
  · intro h
    by_cases hstatic : ∀ e, .hole e ∉ parts
    · exact .inl hstatic
    · obtain ⟨e, he⟩ := Classical.not_forall.1 hstatic
      rw [readLiteral_of_hole (Classical.not_not.1 he)] at h
      exact .inr ((readFrom_renderParts_iff htexts hholes).1 h)
  · rintro (hstatic | hseamless)
    · exact readLiteral_of_static hstatic
    · exact readLiteral_of_seamless htexts hholes hseamless

/-- A dollar sign and a name in braces that come from two texts are read as a hole. -/
theorem hole_read_at_seam :
    let parts : List (TemplatePart Expr) := [.text "$", .text "\x7bx\x7d", .hole (.ident "y")]
    readLiteral (Expr.template parts).render = some [.hole ['x'], .hole ['y']] ∧
      readLiteral (Expr.template parts).render ≠ some (itemsOf parts) := by
  have hseam : ¬seamless false
      [.text "$", .text "\x7bx\x7d", .hole (.ident "y")] := by
    decide
  refine ⟨by decide, fun h ↦ ?_⟩
  rcases (readLiteral_template_iff (by simp) (by simp; decide)).1 h with
    hstatic | hseamless
  · exact hstatic (.ident "y") (by simp)
  · exact hseam hseamless

end ApiClient.TypeScript
