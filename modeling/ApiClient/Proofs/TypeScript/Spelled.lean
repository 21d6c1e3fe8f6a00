import ApiClient.Proofs.TypeScript.Enclosed
import ApiClient.Proofs.TypeScript.Scopes

/-!
# Expressions close what they open

The text of an expression is enclosed if its names are inert. The one exception is a template in
which a text that ends in a dollar sign meets a text that begins with a brace, because together they
open a hole that was not meant.
-/

namespace ApiClient.TypeScript

open TypeScript.Frame (run run_of_append)

/-! ## Templates -/

/-- Whether no text that ends in a dollar sign meets a text that begins with a brace, `dollar` being
whether a dollar sign stands in front. -/
def seamless (dollar : Bool) : List (TemplatePart Expr) → Bool
  | [] => true
  | .hole _ :: rest => seamless false rest
  | .text s :: rest =>
    !(dollar && s.toList.head? == some '\x7b') &&
      seamless (s.toList.getLast?.elim dollar (· == '$')) rest

theorem run_escapeTemplateChar {dollar : Bool} {c : Char} (h : ¬(dollar ∧ c = '\x7b'))
    (next : Option Char) (outer : List Frame) :
    run (.template dollar :: outer) (escapeTemplateChar c next) =
      some (.template (c == '$' && next != some '\x7b') :: outer) := by
  by_cases hbackslash : c = '\\'
  · subst hbackslash
    simp [escapeTemplateChar, Frame.run_cons, Frame.step]
  by_cases hquote : c = '\x60'
  · subst hquote
    simp [escapeTemplateChar, Frame.run_cons, Frame.step]
  by_cases hhole : c = '$' ∧ next = some '\x7b'
  · obtain ⟨rfl, rfl⟩ := hhole
    simp [escapeTemplateChar, Frame.run_cons, Frame.step]
  · have hself : escapeTemplateChar c next = [c] := by
      rw [escapeTemplateChar, if_neg hbackslash, if_neg hquote, if_neg (by simpa using hhole)]
    have hflag : (c == '$' && next != some '\x7b') = (c == '$') := by
      by_cases hdollar : c = '$' <;> simp_all
    rw [hself, hflag, Frame.run_cons, Frame.step, if_neg hquote, if_neg hbackslash, if_neg h]
    rfl

/-- A template stays open in its text, which ends in a dollar sign or not, unless the text opens a
hole with a dollar sign in front of it. -/
theorem run_escapeTemplate {dollar : Bool} {cs : List Char}
    (h : ¬(dollar ∧ cs.head? = some '\x7b')) (outer : List Frame) :
    run (.template dollar :: outer) (escapeTemplate cs) =
      some (.template (cs.getLast?.elim dollar (· == '$')) :: outer) := by
  induction cs generalizing dollar with
  | nil => rfl
  | cons c cs ih =>
    have hc : ¬(dollar ∧ c = '\x7b') := by simpa using h
    rw [escapeTemplate, run_of_append (run_escapeTemplateChar hc cs.head? outer), ih (by simp)]
    cases cs with
    | nil => simp
    | cons d cs =>
      rw [List.getLast?_cons_cons, List.getLast?_cons]
      rfl

/-! ## Expressions -/

mutual

/-- The names in an expression are inert, and its templates have no seams. -/
def Expr.Spelled : Expr → Prop
  | .ident name => IsInert name
  | .literal _ => True
  | .member object name => object.Spelled ∧ IsInert name
  | .call callee typeArgs args =>
    callee.Spelled ∧ (∀ t ∈ typeArgs, t.Spelled) ∧ SpelledExprs args
  | .object entries => SpelledEntries entries
  | .template parts => SpelledParts parts ∧ ((staticText? parts).isSome ∨ seamless false parts)
  | .and left right => left.Spelled ∧ right.Spelled
  | .arrow params body => SpelledParams params ∧ body.Spelled

def SpelledExprs : List Expr → Prop
  | [] => True
  | e :: es => e.Spelled ∧ SpelledExprs es

def SpelledEntries : List (Entry Expr) → Prop
  | [] => True
  | .prop _ value :: rest => value.Spelled ∧ SpelledEntries rest
  | .spread value :: rest => value.Spelled ∧ SpelledEntries rest

def SpelledParts : List (TemplatePart Expr) → Prop
  | [] => True
  | .text _ :: rest => SpelledParts rest
  | .hole e :: rest => e.Spelled ∧ SpelledParts rest

def SpelledBindings : List (Binding Expr) → Prop
  | [] => True
  | ⟨_, name, fallback⟩ :: rest => IsInert name ∧ SpelledFallback fallback ∧ SpelledBindings rest

def SpelledFallback : Option Expr → Prop
  | none => True
  | some e => e.Spelled

def SpelledPattern : Pattern Expr → Prop
  | .name s => IsInert s
  | .object bindings => SpelledBindings bindings

def SpelledParams : List (Param Expr) → Prop
  | [] => True
  | ⟨pattern, type, _, fallback⟩ :: rest =>
    SpelledPattern pattern ∧ (∀ t ∈ type, t.Spelled) ∧ SpelledFallback fallback ∧
      SpelledParams rest

end

theorem spelledExprs_iff {es : List Expr} : SpelledExprs es ↔ ∀ e ∈ es, e.Spelled := by
  induction es with
  | nil => simp [SpelledExprs]
  | cons e es ih => rw [SpelledExprs, ih, List.forall_mem_cons]

theorem spelledEntries_iff {entries : List (Entry Expr)} :
    SpelledEntries entries ↔ ∀ entry ∈ entries, entry.value.Spelled := by
  induction entries with
  | nil => simp [SpelledEntries]
  | cons entry entries ih =>
    rw [List.forall_mem_cons]
    cases entry <;> rw [SpelledEntries, ih] <;> rfl

theorem enclosed_renderBound {key name : String} (h : IsInert name) :
    Enclosed (renderBound key name) := by
  have hname := enclosed_of_isInert h
  exact enclosed_if hname (((enclosed_propertyKey key).append (by decide)).append hname)

theorem enclosed_of_isShorthand {key : String} {value : Expr} (h : isShorthand key value) :
    Enclosed key := by
  unfold isShorthand at h
  split at h
  · exact enclosed_of_isInert (isInert_of_isIdentifier (Bool.and_eq_true_iff.1 h).2)
  · cases h

mutual

theorem Expr.enclosed : (e : Expr) → e.Spelled → Enclosed e.render
  | .ident name, h => by
    rw [Expr.Spelled] at h
    rw [Expr.render]
    exact enclosed_of_isInert h
  | .literal l, _ => by
    rw [Expr.render]
    exact enclosed_literal l
  | .member object name, h => by
    rw [Expr.Spelled] at h
    rw [Expr.render]
    exact ((object.enclosed h.1).append (by decide)).append (enclosed_of_isInert h.2)
  | .call callee typeArgs args, h => by
    rw [Expr.Spelled] at h
    have hcallee := callee.enclosed h.1
    have hangle : Enclosed "<" := by decide
    have htypes := enclosed_renderTypes typeArgs fun name hname ↦ by
      obtain ⟨t, ht, hname⟩ := mem_wordsOfTypes.1 hname
      exact h.2.1 t ht name hname
    have hargs := enclosed_renderExprs args h.2.2
    rw [Expr.render]
    refine ((hcallee.append (enclosed_if enclosed_empty ?_)).append (by decide)).append
      (Enclosed.join (by decide) hargs) |>.append (by decide)
    exact (hangle.append (Enclosed.join (by decide) htypes)).append (by decide)
  | .object entries, h => by
    rw [Expr.Spelled] at h
    rw [Expr.render]
    exact enclosed_braced (by decide) (enclosed_renderEntries entries h)
  | .template parts, h => by
    rw [Expr.Spelled] at h
    rw [Expr.render]
    cases hstatic : staticText? parts with
    | some s => exact enclosed_quote s
    | none =>
      have hseamless : seamless false parts := by simpa [hstatic] using h.2
      obtain ⟨dollar, hparts⟩ := run_renderParts parts h.1 hseamless [.brace]
      have hopening : Frame.run [.brace] "\x60".toList = some [.template false, .brace] := by decide
      have hclosing : Frame.run [.template dollar, .brace] "\x60".toList = some [.brace] := by
        cases dollar <;> decide
      dsimp only
      rw [Enclosed, String.toList_append, String.toList_append, List.append_assoc,
        run_of_append hopening, run_of_append hparts, hclosing]
  | .and left right, h => by
    rw [Expr.Spelled] at h
    rw [Expr.render]
    exact ((left.enclosed h.1).append (by decide)).append (right.enclosed h.2)
  | .arrow params body, h => by
    rw [Expr.Spelled] at h
    have hparen : Enclosed "(" := by decide
    have hcomma : Enclosed ", " := by decide
    have hparams := hcomma.join (enclosed_renderParams params h.1)
    rw [Expr.render]
    exact ((hparen.append hparams).append (by decide)).append (body.enclosed h.2)

theorem enclosed_renderExprs : (es : List Expr) → SpelledExprs es →
    ∀ s ∈ renderExprs es, Enclosed s
  | [], _ => by simp [renderExprs]
  | e :: es, h => by
    rw [SpelledExprs] at h
    rw [renderExprs, List.forall_mem_cons]
    exact ⟨e.enclosed h.1, enclosed_renderExprs es h.2⟩

theorem enclosed_renderEntries : (entries : List (Entry Expr)) → SpelledEntries entries →
    ∀ s ∈ renderEntries entries, Enclosed s
  | [], _ => by simp [renderEntries]
  | .prop key value :: rest, h => by
    rw [SpelledEntries] at h
    rw [renderEntries, List.forall_mem_cons]
    refine ⟨?_, enclosed_renderEntries rest h.2⟩
    split
    next hshort => exact enclosed_of_isShorthand hshort
    next => exact ((enclosed_propertyKey key).append (by decide)).append (value.enclosed h.1)
  | .spread value :: rest, h => by
    rw [SpelledEntries] at h
    have hdots : Enclosed "..." := by decide
    rw [renderEntries, List.forall_mem_cons]
    exact ⟨hdots.append (value.enclosed h.1), enclosed_renderEntries rest h.2⟩

/-- A template stays open in its parts. -/
theorem run_renderParts {dollar : Bool} : (parts : List (TemplatePart Expr)) →
    SpelledParts parts → seamless dollar parts → (outer : List Frame) →
    ∃ dollar', run (.template dollar :: outer) (renderParts parts).toList =
      some (.template dollar' :: outer)
  | [], _, _, outer => by
    rw [renderParts]
    exact ⟨dollar, rfl⟩
  | .text s :: rest, h, hseamless, outer => by
    rw [SpelledParts] at h
    rw [seamless, Bool.and_eq_true] at hseamless
    obtain ⟨dollar', hrest⟩ := run_renderParts rest h hseamless.2 outer
    have hmeet : ¬(dollar ∧ s.toList.head? = some '\x7b') := by
      rintro ⟨hdollar, hbrace⟩
      simp [hdollar, hbrace] at hseamless
    refine ⟨dollar', ?_⟩
    rw [renderParts, String.toList_append, String.toList_ofList,
      run_of_append (run_escapeTemplate hmeet outer), hrest]
  | .hole e :: rest, h, hseamless, outer => by
    rw [SpelledParts] at h
    rw [seamless] at hseamless
    obtain ⟨dollar', hrest⟩ := run_renderParts rest h.2 hseamless outer
    have hopening : run (.template dollar :: outer) "$\x7b".toList =
        some (.brace :: .template false :: outer) := by
      simp [Frame.run_cons, Frame.step]
    have hclosing : run (.brace :: .template false :: outer) "\x7d".toList =
        some (.template false :: outer) := by
      simp [Frame.run_cons, Frame.step]
    refine ⟨dollar', ?_⟩
    rw [renderParts, String.toList_append, String.toList_append, String.toList_append,
      List.append_assoc, List.append_assoc, run_of_append hopening,
      run_of_append ((e.enclosed h.1).run _), run_of_append hclosing, hrest]

theorem enclosed_renderBindings : (bindings : List (Binding Expr)) → SpelledBindings bindings →
    ∀ s ∈ renderBindings bindings, Enclosed s
  | [], _ => by simp [renderBindings]
  | ⟨key, name, fallback⟩ :: rest, h => by
    rw [SpelledBindings] at h
    rw [renderBindings, List.forall_mem_cons]
    exact ⟨(enclosed_renderBound h.1).append (enclosed_renderFallback fallback h.2.1),
      enclosed_renderBindings rest h.2.2⟩

theorem enclosed_renderFallback : (fallback : Option Expr) → SpelledFallback fallback →
    Enclosed (renderFallback fallback)
  | none, _ => by
    rw [renderFallback]
    exact enclosed_empty
  | some e, h => by
    rw [SpelledFallback] at h
    have hequals : Enclosed " = " := by decide
    rw [renderFallback]
    exact hequals.append (e.enclosed h)

theorem enclosed_renderPattern : (pattern : Pattern Expr) → SpelledPattern pattern →
    Enclosed (renderPattern pattern)
  | .name s, h => by
    rw [SpelledPattern] at h
    rw [renderPattern]
    exact enclosed_of_isInert h
  | .object bindings, h => by
    rw [SpelledPattern] at h
    rw [renderPattern]
    exact (Enclosed.join (by decide) (enclosed_renderBindings bindings h)).between (by decide)
      (by decide)

theorem enclosed_renderParams : (params : List (Param Expr)) → SpelledParams params →
    ∀ s ∈ renderParams params, Enclosed s
  | [], _ => by simp [renderParams]
  | ⟨pattern, type, optional, fallback⟩ :: rest, h => by
    rw [SpelledParams] at h
    obtain ⟨hpattern, htype, hfallback, hrest⟩ := h
    have hmark : Enclosed (if optional then "?" else "") := enclosed_if (by decide) enclosed_empty
    have hpattern := (enclosed_renderPattern pattern hpattern).append hmark
    have hfallback := enclosed_renderFallback fallback hfallback
    have hrest := enclosed_renderParams rest hrest
    cases type with
    | none =>
      rw [renderParams, List.forall_mem_cons]
      exact ⟨(hpattern.append enclosed_empty).append hfallback, hrest⟩
    | some t =>
      have hcolon : Enclosed ": " := by decide
      rw [renderParams, List.forall_mem_cons]
      exact ⟨(hpattern.append (hcolon.append (t.enclosed (htype t rfl)))).append hfallback, hrest⟩

end

end ApiClient.TypeScript
