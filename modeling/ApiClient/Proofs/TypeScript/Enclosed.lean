import ApiClient.Proofs.Decimal.Layouts
import ApiClient.Proofs.TypeScript.ExprTypes
import ApiClient.Proofs.TypeScript.Identifiers

/-!
# What code opens and closes

In code braces, quotes and templates are opened and closed again, and a reader that looks for the
brace at the end of a hole has to keep count of them. Literals, names and types are enclosed: they
close what they open and nothing else.
-/

namespace ApiClient.TypeScript

/-- What is open at a place in code. -/
inductive Frame where
  | brace
  | quotes
  /-- A template, and whether a dollar sign stands right before the place. -/
  | template (dollar : Bool)
  /-- The character behind a backslash. -/
  | escape
deriving DecidableEq

namespace Frame

/-- What is open after one more character. Texts in single quotes, comments and regular expressions
are not read. -/
def step : List Frame → Char → Option (List Frame)
  | [], _ => none
  | .brace :: outer, c =>
    if c = '\x7d' then some outer
    else if c = '\x7b' then some (.brace :: .brace :: outer)
    else if c = '"' then some (.quotes :: .brace :: outer)
    else if c = '\x60' then some (.template false :: .brace :: outer)
    else if c = '\'' ∨ c = '/' then none
    else some (.brace :: outer)
  | .quotes :: outer, c =>
    if c = '"' then some outer
    else if c = '\\' then some (.escape :: .quotes :: outer)
    else if c = '\n' ∨ c = '\r' then none
    else some (.quotes :: outer)
  | .template dollar :: outer, c =>
    if c = '\x60' then some outer
    else if c = '\\' then some (.escape :: .template false :: outer)
    else if dollar ∧ c = '\x7b' then some (.brace :: .template false :: outer)
    else some (.template (c == '$') :: outer)
  | .escape :: outer, _ => some outer

def run (frames : List Frame) (cs : List Char) : Option (List Frame) :=
  cs.foldlM step frames

variable {frames inner outer : List Frame} {c : Char} {cs ds : List Char}

@[simp] theorem run_nil (frames : List Frame) : run frames [] = some frames := rfl

theorem run_cons (frames : List Frame) (c : Char) (cs : List Char) :
    run frames (c :: cs) = (step frames c).bind fun inner ↦ run inner cs := rfl

theorem run_append (frames : List Frame) (cs ds : List Char) :
    run frames (cs ++ ds) = (run frames cs).bind fun inner ↦ run inner ds :=
  List.foldlM_append

theorem run_of_append (h : run frames cs = some inner) :
    run frames (cs ++ ds) = run inner ds := by
  rw [run_append, h, Option.bind_some]

/-- What is open outside has no influence. -/
theorem step_outer (h : step frames c = some inner) (outer : List Frame) :
    step (frames ++ outer) c = some (inner ++ outer) := by
  cases frames with
  | nil => cases h
  | cons frame frames => cases frame <;> simp only [step, List.cons_append] at h ⊢ <;> grind

theorem run_outer (h : run frames cs = some inner) (outer : List Frame) :
    run (frames ++ outer) cs = some (inner ++ outer) := by
  induction cs generalizing frames with
  | nil =>
    cases h
    rfl
  | cons c cs ih =>
    rw [run_cons] at h ⊢
    obtain ⟨next, hstep, h⟩ := Option.bind_eq_some_iff.1 h
    rw [step_outer hstep outer, Option.bind_some]
    exact ih h

end Frame

open TypeScript.Frame (run run_of_append run_outer)

/-- Code that closes what it opens and nothing else. -/
def Enclosed (s : String) : Prop :=
  run [.brace] s.toList = some [.brace]

instance (s : String) : Decidable (Enclosed s) :=
  inferInstanceAs (Decidable (_ = _))

/-- The characters that open or close something in code, or begin something that is not read. -/
def signs : List Char :=
  ['\x7b', '\x7d', '"', '\'', '\x60', '/']

def isInert (c : Char) : Bool :=
  !signs.contains c

theorem isInert_or_mem_signs (c : Char) : isInert c ∨ c ∈ signs := by
  by_cases h : c ∈ signs
  · exact .inr h
  · exact .inl (by simp [isInert, h])

def IsInert (name : String) : Prop :=
  ∀ c ∈ name.toList, isInert c

instance (name : String) : Decidable (IsInert name) :=
  List.decidableBAll (fun c ↦ isInert c) name.toList

theorem step_of_isInert {c : Char} (h : isInert c) (outer : List Frame) :
    Frame.step (.brace :: outer) c = some (.brace :: outer) := by
  simp only [isInert, signs, List.contains_cons, List.contains_nil] at h
  simp only [Frame.step]
  grind

section

variable {s t : String}

theorem Enclosed.append (hs : Enclosed s) (ht : Enclosed t) : Enclosed (s ++ t) := by
  rw [Enclosed, String.toList_append, run_of_append hs]
  exact ht

theorem Enclosed.run (h : Enclosed s) (outer : List Frame) :
    Frame.run (.brace :: outer) s.toList = some (.brace :: outer) :=
  run_outer h outer

theorem enclosed_of_isInert (h : IsInert s) : Enclosed s := by
  have hrun : ∀ cs : List Char, (∀ c ∈ cs, isInert c) → run [.brace] cs = some [.brace] := by
    intro cs hcs
    induction cs with
    | nil => rfl
    | cons c cs ih =>
      rw [List.forall_mem_cons] at hcs
      rw [Frame.run_cons, step_of_isInert hcs.1, Option.bind_some]
      exact ih hcs.2
  exact hrun _ h

theorem enclosed_empty : Enclosed "" := by
  decide

theorem Enclosed.join {sep : String} (hsep : Enclosed sep) {ss : List String}
    (h : ∀ s ∈ ss, Enclosed s) : Enclosed (Text.join sep ss) := by
  induction ss with
  | nil => exact enclosed_empty
  | cons s ss ih =>
    rw [List.forall_mem_cons] at h
    cases ss with
    | nil => exact h.1
    | cons t ss =>
      rw [Text.join_cons_cons]
      exact (h.1.append hsep).append (ih h.2)

theorem Enclosed.between {opening closing : String}
    (hopening : Frame.run [.brace] opening.toList = some [.brace, .brace])
    (hclosing : Frame.run [.brace, .brace] closing.toList = some [.brace]) (h : Enclosed s) :
    Enclosed (opening ++ s ++ closing) := by
  rw [Enclosed, String.toList_append, String.toList_append, List.append_assoc,
    run_of_append hopening, run_of_append (h.run _), hclosing]

theorem enclosed_braced {sep : String} (hsep : Enclosed sep) {ss : List String}
    (h : ∀ s ∈ ss, Enclosed s) : Enclosed (braced sep ss) := by
  unfold braced
  split
  · decide
  · exact (hsep.join h).between (by decide) (by decide)

end

/-! ## Literals and names -/

theorem isInert_of_isAlphanum {c : Char} (h : c.isAlphanum) : isInert c := by
  have htable := Text.forall_ascii (p := fun c ↦ !c.isAlphanum || isInert c) (by decide)
    (Text.ascii_of_isAlphanum h)
  simpa [h] using htable

theorem isInert_of_continuesIdentifier {c : Char} (h : continuesIdentifier c) : isInert c := by
  have hsigns : signs.all fun c ↦ !continuesIdentifier c := by decide
  rcases isInert_or_mem_signs c with hc | hc
  · exact hc
  · simpa [h] using List.all_eq_true.1 hsigns c hc

theorem isInert_of_isIdentifier {name : String} (h : isIdentifier name) : IsInert name :=
  fun c hc ↦ isInert_of_continuesIdentifier ((isIdentifier_iff.1 h).2.1 c hc)

theorem isInert_toIdentifier (s : String) : IsInert (toIdentifier s) := by
  have hcamel : IsInert (Text.camelCase s) := by
    intro c hc
    have hsigns : signs.all fun c ↦ 0x20 ≤ c.toNat ∧ c.toNat < 0x80 := by decide
    rcases isInert_or_mem_signs c with hinert | hsign
    · exact hinert
    · obtain ⟨hlow, hhigh⟩ := of_decide_eq_true (List.all_eq_true.1 hsigns c hsign)
      exact isInert_of_isAlphanum (Text.isAlphanum_of_mem_camelCase hc hlow hhigh)
  have hending : Text.camelCase s ++ Mode.base.ending = Text.camelCase s := String.append_empty
  simp only [toIdentifier, Bool.false_eq_true, if_false, hending]
  split
  · exact hcamel
  · intro c hc
    rw [String.toList_append] at hc
    rcases List.mem_append.1 hc with hc | hc
    · exact List.mem_singleton.1 hc ▸ by decide
    · exact hcamel c hc

theorem escapeChar_eq_self {c : Char} (hcontrol : ¬c.toNat < 0x20) (hquote : c ≠ '"')
    (hbackslash : c ≠ '\\') : Json.escapeChar c = [c] := by
  have hne : ∀ d : Char, d.toNat < 0x20 → c ≠ d := by
    rintro d hd rfl
    exact hcontrol hd
  rw [Json.escapeChar, if_neg hquote, if_neg hbackslash, if_neg (hne _ (by decide)),
    if_neg (hne _ (by decide)), if_neg (hne _ (by decide)), if_neg (by omega), if_neg (by omega),
    if_neg hcontrol]

theorem run_escapeChar (c : Char) (outer : List Frame) :
    run (.quotes :: outer) (Json.escapeChar c) = some (.quotes :: outer) := by
  suffices h : run [.quotes] (Json.escapeChar c) = some [.quotes] from run_outer h outer
  by_cases hcontrol : c.toNat < 0x20
  · have htable : ∀ n < 0x20, run [.quotes] (Json.escapeChar (Char.ofNat n)) = some [.quotes] := by
      decide
    have hchar := htable c.toNat hcontrol
    rwa [Char.ofNat_toNat] at hchar
  by_cases hquote : c = '"'
  · subst hquote
    decide
  by_cases hbackslash : c = '\\'
  · subst hbackslash
    decide
  have hline : ¬(c = '\n' ∨ c = '\r') := by
    rintro (rfl | rfl) <;> exact hcontrol (by decide)
  rw [escapeChar_eq_self hcontrol hquote hbackslash, Frame.run_cons, Frame.step, if_neg hquote,
    if_neg hbackslash, if_neg hline]
  rfl

theorem enclosed_quote (s : String) : Enclosed (Json.quote s) := by
  have hrun : ∀ cs : List Char, run [.quotes, .brace] (cs.flatMap Json.escapeChar) =
      some [.quotes, .brace] := by
    intro cs
    induction cs with
    | nil => rfl
    | cons c cs ih => rw [List.flatMap_cons, run_of_append (run_escapeChar c _), ih]
  rw [Enclosed, Json.quote, String.toList_ofList, Frame.run_cons]
  exact run_of_append (hrun _)

theorem enclosed_number (n : Json.Number) : Enclosed n.text := by
  refine enclosed_of_isInert fun c hc ↦ ?_
  have hmarks : Decimal.marks.all isInert := by decide
  rcases n.isDigit_or_mark hc with hc | hc
  · exact isInert_of_isAlphanum (Text.isAlphanum_of_isDigit hc)
  · exact List.all_eq_true.1 hmarks c hc

theorem enclosed_literal (l : Literal) : Enclosed l.render := by
  cases l with
  | str s => exact enclosed_quote s
  | num n => exact enclosed_number n
  | bool b => cases b <;> decide
  | null => decide

theorem enclosed_propertyKey (name : String) : Enclosed (propertyKey name) := by
  unfold propertyKey
  split
  next h =>
    refine enclosed_of_isInert fun c hc ↦ isInert_of_continuesIdentifier ?_
    unfold isPlainKey at h
    split at h
    · cases h
    next first rest heq =>
      rw [Bool.and_eq_true, List.all_eq_true] at h
      exact h.2 c (heq ▸ hc)
  next => exact enclosed_quote name

/-! ## Types -/

/-- The names of other types in a type are inert. -/
def Ty.Spelled (t : Ty) : Prop :=
  ∀ name, .type name ∈ t.words → IsInert name

theorem Enclosed.parenthesized {s : String} (h : Enclosed s) : Enclosed (parenthesized s) := by
  have hopening : Enclosed "(" := by decide
  have hclosing : Enclosed ")" := by decide
  exact (hopening.append h).append hclosing

theorem enclosed_if {p : Prop} [Decidable p] {s t : String} (hs : Enclosed s) (ht : Enclosed t) :
    Enclosed (if p then s else t) := by
  split
  · exact hs
  · exact ht

theorem spelled_of_mem {ts : List Ty} (h : ∀ name, .type name ∈ wordsOfTypes ts → IsInert name)
    {t : Ty} (ht : t ∈ ts) : t.Spelled :=
  fun name hname ↦ h name (mem_wordsOfTypes.2 ⟨t, ht, hname⟩)

mutual

theorem Ty.enclosed : (t : Ty) → t.Spelled → Enclosed t.render
  | .keyword k, _ => by
    rw [Ty.render]
    cases k <;> decide
  | .literal l, _ => by
    rw [Ty.render]
    exact enclosed_literal l
  | .named name, h => by
    rw [Ty.render]
    exact enclosed_of_isInert (h name (by simp))
  | .array item, h => by
    have hitem := item.enclosed fun name hname ↦ h name (by simpa using hname)
    rw [Ty.render]
    exact (enclosed_if hitem.parenthesized hitem).append (by decide)
  | .tuple items, h => by
    have hitems := enclosed_renderTypes items fun name hname ↦ h name (by simpa using hname)
    have hbracket : Enclosed "[" := by decide
    rw [Ty.render]
    exact (hbracket.append (Enclosed.join (by decide) hitems)).append (by decide)
  | .union [], _ => by
    rw [Ty.render]
    decide
  | .union (t :: ts), h => by
    rw [Ty.render]
    exact Enclosed.join (by decide)
      (enclosed_renderTypes (t :: ts) fun name hname ↦ h name (by simpa using hname))
  | .inter [], _ => by
    rw [Ty.render]
    decide
  | .inter (t :: ts), h => by
    rw [Ty.render]
    exact Enclosed.join (by decide)
      (enclosed_renderFactors (t :: ts) fun name hname ↦ h name (by simpa using hname))
  | .object members index, h => by
    rw [Ty.render]
    refine enclosed_braced (by decide) (List.forall_mem_append.2 ⟨?_, ?_⟩)
    · exact enclosed_renderMembers members fun name hname ↦
        h name (by rw [Ty.words_object]; exact List.mem_append_left _ hname)
    · exact enclosed_renderIndex index fun name hname ↦
        h name (by rw [Ty.words_object]; exact List.mem_append_right _ hname)

theorem enclosed_renderTypes : (ts : List Ty) →
    (∀ name, .type name ∈ wordsOfTypes ts → IsInert name) → ∀ s ∈ renderTypes ts, Enclosed s
  | [], _ => by simp [renderTypes]
  | t :: ts, h => by
    rw [renderTypes, List.forall_mem_cons]
    exact ⟨t.enclosed (spelled_of_mem h List.mem_cons_self),
      enclosed_renderTypes ts fun name hname ↦ h name (by simp [hname])⟩

theorem enclosed_renderFactors : (ts : List Ty) →
    (∀ name, .type name ∈ wordsOfTypes ts → IsInert name) → ∀ s ∈ renderFactors ts, Enclosed s
  | [], _ => by simp [renderFactors]
  | t :: ts, h => by
    have ht := t.enclosed (spelled_of_mem h List.mem_cons_self)
    rw [renderFactors, List.forall_mem_cons]
    exact ⟨enclosed_if ht.parenthesized ht,
      enclosed_renderFactors ts fun name hname ↦ h name (by simp [hname])⟩

theorem enclosed_renderMembers : (ms : List (Member Ty)) →
    (∀ name, .type name ∈ wordsOfMembers ms → IsInert name) → ∀ s ∈ renderMembers ms, Enclosed s
  | [], _ => by simp [renderMembers]
  | ⟨name, type, optional⟩ :: rest, h => by
    have htype := type.enclosed fun name hname ↦ h name (by simp [hname])
    rw [renderMembers, List.forall_mem_cons]
    refine ⟨?_, enclosed_renderMembers rest fun name hname ↦ h name (by simp [hname])⟩
    exact ((((enclosed_propertyKey name).append (enclosed_if (by decide) enclosed_empty)).append
      (by decide)).append htype).append (by decide)

theorem enclosed_renderIndex : (index : Option Ty) →
    (∀ name, .type name ∈ wordsOfIndex index → IsInert name) → ∀ s ∈ renderIndex index, Enclosed s
  | none, _ => by simp [renderIndex]
  | some t, h => by
    have ht := t.enclosed fun name hname ↦ h name (by simpa using hname)
    have hkey : Enclosed "[key: string]: " := by decide
    rw [renderIndex, List.forall_mem_singleton]
    exact (hkey.append ht).append (by decide)

end

end ApiClient.TypeScript
