import ApiClient.Proofs.TypeScript.NormalTypes
import ApiClient.Proofs.TypeScript.TypeTokens

/-!
# The grammar of types

Brackets bind tighter than ampersands, and ampersands tighter than bars; around all else there have
to be parentheses. The readers descend these levels: each takes what it can from the front of the
tokens and gives back what is left, which is never more than there was. A word of the language that
is not a type is no name of one either, and neither is a path that begins with such a word.
-/

namespace ApiClient.TypeScript

/-- The words that are types by themselves. -/
def typeWords : List (String × Ty) := [
  ("any", .any), ("string", .keyword .string), ("number", .keyword .number),
  ("boolean", .keyword .boolean), ("object", .keyword .object), ("null", .keyword .null),
  ("undefined", .keyword .undefined), ("never", .union []), ("unknown", .inter []),
  ("true", .literal (.bool true)), ("false", .literal (.bool false))]

/-- All words that are types by themselves, also those of which there is no type here. -/
def typeKeywords : List String :=
  typeWords.map Prod.fst ++ ["bigint", "symbol"]

/-- The words that stand in front of a type. -/
def typeOperators : List String := ["keyof", "unique", "readonly", "infer"]

/-- The type of a word and of those that stand behind it with points between them. -/
def pathType? (w : String) (ws : List String) : Option Ty :=
  let name := Text.join "." (w :: ws)
  match typeWords.lookup name with
  | some t => some t
  | none =>
    if name ∈ typeKeywords ∨ w ∈ typeOperators ∨ w ∈ reservedWords then none
    else some (.named name)

/-- What is left of tokens when some of them have been read. -/
abbrev Rest (ts : List Token) : Type :=
  {rest : List Token // rest.length ≤ ts.length}

/-- What is left of tokens when at least one of them has been read. -/
abbrev ShorterRest (ts : List Token) : Type :=
  {rest : List Token // rest.length < ts.length}

def readPath : (ts : List Token) → List String × Rest ts
  | .mark '.' :: .word w :: rest =>
    let (ws, ⟨rest, h⟩) := readPath rest
    (w :: ws, ⟨rest, Nat.le_succ_of_le (Nat.le_succ_of_le h)⟩)
  | rest => ([], ⟨rest, Nat.le_refl _⟩)

/-- The brackets behind a type. -/
def readBrackets (t : Ty) : (ts : List Token) → Ty × Rest ts
  | .mark '[' :: .mark ']' :: rest =>
    let (t, ⟨rest, h⟩) := readBrackets (.array t) rest
    (t, ⟨rest, Nat.le_succ_of_le (Nat.le_succ_of_le h)⟩)
  | rest => (t, ⟨rest, Nat.le_refl _⟩)

def expect? (c : Char) : (ts : List Token) → Option (ShorterRest ts)
  | .mark d :: rest => if c = d then some ⟨rest, Nat.lt_add_one _⟩ else none
  | _ => none

/-- The name of a member, a question mark if it can be left out, and the colon behind them. -/
def readName? : (ts : List Token) → Option (String × Bool × ShorterRest ts)
  | .word w :: .mark '?' :: .mark ':' :: rest => some (w, true, ⟨rest, Nat.lt_add_of_pos_right (Nat.succ_pos 2)⟩)
  | .word w :: .mark ':' :: rest => some (w, false, ⟨rest, Nat.lt_add_of_pos_right (Nat.succ_pos 1)⟩)
  | .text s :: .mark '?' :: .mark ':' :: rest => some (s, true, ⟨rest, Nat.lt_add_of_pos_right (Nat.succ_pos 2)⟩)
  | .text s :: .mark ':' :: rest => some (s, false, ⟨rest, Nat.lt_add_of_pos_right (Nat.succ_pos 1)⟩)
  | _ => none

/-- What stands in front of the type of all other members. -/
def readIndexKey? : (ts : List Token) → Option (ShorterRest ts)
  | .mark '[' :: .word _ :: .mark ':' :: .word "string" :: .mark ']' :: .mark ':' :: rest =>
    some ⟨rest, Nat.lt_add_of_pos_right (Nat.succ_pos 5)⟩
  | _ => none

-- Each reader that reads the same tokens with another one stands above it, and the two that read
-- lists stand above all. What is behind a mark is shorter, and then the whole order begins anew.
mutual

/-- A type, and what comes behind it. -/
def readType (ts : List Token) : Option (Ty × Rest ts) := do
  let (us, rest) ← readAlternatives ts
  return (Joint.union.join us, rest)
termination_by 8 * ts.length + 6

/-- The types between bars. -/
def readAlternatives (ts : List Token) : Option (List Ty × Rest ts) := do
  let (us, ⟨rest, _⟩) ← readFactors ts
  let (more, ⟨rest, _⟩) ← readMoreAlternatives rest
  return (Joint.inter.join us :: more, ⟨rest, by omega⟩)
termination_by 8 * ts.length + 5

def readMoreAlternatives (ts : List Token) : Option (List Ty × Rest ts) :=
  match expect? '|' ts with
  | some ⟨rest, _⟩ => do
    let (us, ⟨rest, _⟩) ← readAlternatives rest
    return (us, ⟨rest, by omega⟩)
  | none => return ([], ⟨ts, Nat.le_refl _⟩)
termination_by 8 * ts.length + 4

/-- The types between ampersands. -/
def readFactors (ts : List Token) : Option (List Ty × Rest ts) := do
  let (t, ⟨rest, _⟩) ← readOperand ts
  let (more, ⟨rest, _⟩) ← readMoreFactors rest
  return (t :: more, ⟨rest, by omega⟩)
termination_by 8 * ts.length + 3

def readMoreFactors (ts : List Token) : Option (List Ty × Rest ts) :=
  match expect? '&' ts with
  | some ⟨rest, _⟩ => do
    let (us, ⟨rest, _⟩) ← readFactors rest
    return (us, ⟨rest, by omega⟩)
  | none => return ([], ⟨ts, Nat.le_refl _⟩)
termination_by 8 * ts.length + 2

/-- A type with the brackets behind it. -/
def readOperand (ts : List Token) : Option (Ty × Rest ts) := do
  let (t, ⟨rest, _⟩) ← readPrimary ts
  let (t, ⟨rest, _⟩) := readBrackets t rest
  return (t, ⟨rest, by omega⟩)
termination_by 8 * ts.length + 1

/-- A type without operators, unless in parentheses. -/
def readPrimary (ts : List Token) : Option (Ty × Rest ts) :=
  match ts with
  | .text s :: rest => return (.literal (.str s), ⟨rest, Nat.le_succ _⟩)
  | .number n :: rest => return (.literal (.num n), ⟨rest, Nat.le_succ _⟩)
  | .word w :: rest => do
    let (ws, ⟨rest, h⟩) := readPath rest
    let t ← pathType? w ws
    return (t, ⟨rest, Nat.le_succ_of_le h⟩)
  | .mark '(' :: rest => do
    let (t, ⟨rest, _⟩) ← readType rest
    let ⟨rest, _⟩ ← expect? ')' rest
    return (t, ⟨rest, Nat.le_succ_of_le (by omega)⟩)
  | .mark '[' :: rest => do
    let (us, ⟨rest, h⟩) ← readItems rest
    return (.tuple us, ⟨rest, Nat.le_succ_of_le h⟩)
  | .mark '\x7b' :: rest => do
    let ((members, index), ⟨rest, h⟩) ← readMembers rest
    return (.object members index, ⟨rest, Nat.le_succ_of_le h⟩)
  | _ => none
termination_by 8 * ts.length + 0

/-- The types of a tuple up to its closing bracket. -/
def readItems (ts : List Token) : Option (List Ty × Rest ts) :=
  match expect? ']' ts with
  | some ⟨rest, _⟩ => return ([], ⟨rest, by omega⟩)
  | none => do
    let (t, ⟨rest, _⟩) ← readType ts
    match expect? ',' rest with
    | some ⟨rest, _⟩ => do
      let (more, ⟨rest, _⟩) ← readItems rest
      return (t :: more, ⟨rest, by omega⟩)
    | none => do
      let ⟨rest, _⟩ ← expect? ']' rest
      return ([t], ⟨rest, by omega⟩)
termination_by 8 * ts.length + 7

/-- The members of an object up to its closing brace. -/
def readMembers (ts : List Token) : Option ((List (Member Ty) × Option Ty) × Rest ts) :=
  match expect? '\x7d' ts with
  | some ⟨rest, _⟩ => return (([], none), ⟨rest, by omega⟩)
  | none =>
    match readIndexKey? ts with
    | some ⟨rest, _⟩ => do
      let (t, ⟨rest, _⟩) ← readType rest
      let ⟨rest, _⟩ ← expect? ';' rest
      let ⟨rest, _⟩ ← expect? '\x7d' rest
      return (([], some t), ⟨rest, by omega⟩)
    | none => do
      let (name, optional, ⟨rest, _⟩) ← readName? ts
      let (t, ⟨rest, _⟩) ← readType rest
      let ⟨rest, _⟩ ← expect? ';' rest
      let ((members, index), ⟨rest, _⟩) ← readMembers rest
      return ((⟨name, t, optional⟩ :: members, index), ⟨rest, by omega⟩)
termination_by 8 * ts.length + 7

end

/-- Reads the text of a type. -/
def Ty.read (s : String) : Option Ty := do
  let ts ← lex s.toList
  match ← readType ts with
  | (t, ⟨[], _⟩) => some t
  | _ => none

/-! ## What is read -/

/-- A reader reads a value, and these tokens are left. -/
def Leaves {α : Type} {ts : List Token} (read : Option (α × Rest ts)) (a : α)
    (rest : List Token) : Prop :=
  read.map (fun (a, rest) ↦ (a, rest.1)) = some (a, rest)

/-- Tokens that do not begin with one of these marks. -/
def NotFirst (marks : List Char) (ts : List Token) : Prop :=
  ∀ c ∈ marks, ts.head? ≠ some (.mark c)

/-- Tokens that are a type without operators, unless it goes on as a path. -/
def ReadsPrimary (ts : List Token) (t : Ty) : Prop :=
  ∀ rest, NotFirst ['.'] rest → Leaves (readPrimary (ts ++ rest)) t rest

/-- Tokens that are a type to which brackets behind them belong. -/
def ReadsOperand (ts : List Token) (t : Ty) : Prop :=
  ∀ rest, NotFirst ['.'] rest →
    Leaves (readOperand (ts ++ rest)) (readBrackets t rest).1 (readBrackets t rest).2.1

/-- Tokens that are members of an intersection, which goes on if an ampersand comes behind them. -/
def ReadsFactors (ts : List Token) (us : List Ty) : Prop :=
  ∀ rest, NotFirst ['.', '['] rest → ∀ more left, Leaves (readMoreFactors rest) more left →
    Leaves (readFactors (ts ++ rest)) (us ++ more) left

/-- Tokens that are members of a union, which goes on if a bar comes behind them. -/
def ReadsAlternatives (ts : List Token) (us : List Ty) : Prop :=
  ∀ rest, NotFirst ['.', '[', '&'] rest →
    ∀ more left, Leaves (readMoreAlternatives rest) more left →
      Leaves (readAlternatives (ts ++ rest)) (us ++ more) left

/-- Tokens that are a type if no operator comes behind them. -/
def ReadsType (ts : List Token) (t : Ty) : Prop :=
  ∀ rest, NotFirst ['.', '[', '&', '|'] rest → Leaves (readType (ts ++ rest)) t rest

section

variable {ts vs rest left : List Token} {us ws : List Ty} {t u : Ty} {marks : List Char} {c : Char}

theorem Leaves.exists_eq {α : Type} {read : Option (α × Rest ts)} {a : α}
    (h : Leaves read a rest) : ∃ hrest, read = some (a, ⟨rest, hrest⟩) := by
  obtain ⟨⟨a, left⟩, hread, heq⟩ := Option.map_eq_some_iff.1 h
  cases heq
  exact ⟨left.2, hread⟩

theorem NotFirst.mono {marks' : List Char} (h : NotFirst marks ts) (hsub : marks' ⊆ marks) :
    NotFirst marks' ts :=
  fun c hc ↦ h c (hsub hc)

theorem notFirst_mark (hc : c ∉ marks) (rest : List Token) : NotFirst marks (.mark c :: rest) := by
  intro d hd heq
  obtain rfl := Token.mark.inj (Option.some_inj.1 heq)
  exact hc hd

theorem expect?_self (c : Char) (rest : List Token) :
    expect? c (.mark c :: rest) = some ⟨rest, Nat.lt_add_one _⟩ :=
  if_pos rfl

theorem expect?_eq_none (h : rest.head? ≠ some (.mark c)) : expect? c rest = none := by
  unfold expect?
  split
  next d rest =>
    refine if_neg ?_
    rintro rfl
    exact h rfl
  next => rfl

theorem readBrackets_of_notFirst (h : NotFirst ['['] rest) (t : Ty) :
    readBrackets t rest = (t, ⟨rest, Nat.le_refl _⟩) := by
  unfold readBrackets
  split
  next => exact absurd rfl (h '[' List.mem_cons_self)
  next => rfl

theorem ReadsPrimary.operand (h : ReadsPrimary ts t) : ReadsOperand ts t := by
  intro rest hrest
  obtain ⟨_, hread⟩ := (h rest hrest).exists_eq
  rw [Leaves, readOperand, hread]
  rfl

theorem ReadsOperand.array (h : ReadsOperand ts t) :
    ReadsOperand (ts ++ [.mark '[', .mark ']']) (.array t) := by
  intro rest _
  rw [List.append_assoc]
  exact h _ (notFirst_mark (by decide) _)

theorem ReadsOperand.factors (h : ReadsOperand ts t) : ReadsFactors ts [t] := by
  intro rest hrest more left hmore
  have hleaves := h rest (hrest.mono (by decide))
  rw [readBrackets_of_notFirst (hrest.mono (by decide))] at hleaves
  obtain ⟨_, hread⟩ := hleaves.exists_eq
  obtain ⟨_, hmore⟩ := hmore.exists_eq
  rw [Leaves, readFactors, hread, Option.bind_eq_bind, Option.bind_some]
  dsimp only
  rw [hmore]
  rfl

theorem leaves_readMoreFactors (h : Leaves (readFactors rest) us left) :
    Leaves (readMoreFactors (.mark '&' :: rest)) us left := by
  obtain ⟨_, hread⟩ := h.exists_eq
  rw [Leaves, readMoreFactors, expect?_self]
  dsimp only
  rw [hread]
  rfl

theorem ReadsFactors.append (h : ReadsFactors ts us) (h' : ReadsFactors vs ws) :
    ReadsFactors (ts ++ .mark '&' :: vs) (us ++ ws) := by
  intro rest hrest more left hmore
  rw [List.append_assoc, List.cons_append, List.append_assoc]
  have hmore' := leaves_readMoreFactors (h' rest hrest _ _ hmore)
  exact h _ (notFirst_mark (by decide) _) _ _ hmore'

theorem ReadsFactors.alternatives (h : ReadsFactors ts us) :
    ReadsAlternatives ts [Joint.inter.join us] := by
  intro rest hrest more left hmore
  have hend : Leaves (readMoreFactors rest) [] rest := by
    rw [Leaves, readMoreFactors, expect?_eq_none (hrest '&' (by decide))]
    rfl
  obtain ⟨_, hread⟩ := (h rest (hrest.mono (by decide)) _ _ hend).exists_eq
  obtain ⟨_, hmore⟩ := hmore.exists_eq
  rw [Leaves, readAlternatives, hread, Option.bind_eq_bind, Option.bind_some]
  dsimp only
  rw [hmore, List.append_nil]
  rfl

theorem leaves_readMoreAlternatives (h : Leaves (readAlternatives rest) us left) :
    Leaves (readMoreAlternatives (.mark '|' :: rest)) us left := by
  obtain ⟨_, hread⟩ := h.exists_eq
  rw [Leaves, readMoreAlternatives, expect?_self]
  dsimp only
  rw [hread]
  rfl

theorem ReadsAlternatives.append (h : ReadsAlternatives ts us) (h' : ReadsAlternatives vs ws) :
    ReadsAlternatives (ts ++ .mark '|' :: vs) (us ++ ws) := by
  intro rest hrest more left hmore
  rw [List.append_assoc, List.cons_append, List.append_assoc]
  have hmore' := leaves_readMoreAlternatives (h' rest hrest _ _ hmore)
  exact h _ (notFirst_mark (by decide) _) _ _ hmore'

theorem ReadsAlternatives.type (h : ReadsAlternatives ts us) :
    ReadsType ts (Joint.union.join us) := by
  intro rest hrest
  have hend : Leaves (readMoreAlternatives rest) [] rest := by
    rw [Leaves, readMoreAlternatives, expect?_eq_none (hrest '|' (by decide))]
    rfl
  have hleaves := h rest (hrest.mono (by decide)) _ _ hend
  rw [List.append_nil] at hleaves
  obtain ⟨_, hread⟩ := hleaves.exists_eq
  rw [Leaves, readType, hread]
  rfl

theorem ReadsType.parenthesized (h : ReadsType ts t) :
    ReadsPrimary (.mark '(' :: (ts ++ [.mark ')'])) t := by
  intro rest _
  rw [List.cons_append, List.append_assoc, List.singleton_append]
  obtain ⟨_, hread⟩ := (h _ (notFirst_mark (c := ')') (by decide) rest)).exists_eq
  rw [Leaves, readPrimary, hread]
  rfl

/-- A type does not begin with the mark that ends a list. -/
theorem readType_mark (hc : c ∉ ['(', '[', '\x7b']) (rest : List Token) :
    readType (.mark c :: rest) = none := by
  have hprimary : readPrimary (.mark c :: rest) = none := by
    rw [readPrimary.eq_7] <;> grind
  rw [readType, readAlternatives, readFactors, readOperand, hprimary]
  rfl

theorem ReadsType.expect?_eq_none (h : ReadsType ts t) (hc : c ∉ ['(', '[', '\x7b'])
    (hrest : NotFirst ['.', '[', '&', '|'] rest) : expect? c (ts ++ rest) = none := by
  refine TypeScript.expect?_eq_none fun heq ↦ ?_
  obtain ⟨more, hmore⟩ := List.head?_eq_some_iff.1 heq
  have hread := h rest hrest
  rw [hmore, readType_mark hc] at hread
  cases hread

end

/-! ## Paths -/

/-- A name of a type is identifiers with points between them. It is none of the words that are types
themselves, and the first is none that stands in front of a type. -/
def IsTypeName (name : String) : Prop :=
  ∃ w ws, name = Text.join "." (w :: ws) ∧ (∀ v ∈ w :: ws, isIdentifier v) ∧
    name ∉ typeKeywords ∧ w ∉ typeOperators

section

variable {w name : String} {ws : List String} {t u : Ty}

theorem readPath_pathTokens (ws : List String) {rest : List Token} (hrest : NotFirst ['.'] rest) :
    ∃ h, readPath (pathTokens ws ++ rest) = (ws, ⟨rest, h⟩) := by
  induction ws with
  | nil =>
    refine ⟨Nat.le_refl _, ?_⟩
    change readPath rest = _
    unfold readPath
    split
    next => exact absurd rfl (hrest '.' List.mem_cons_self)
    next => rfl
  | cons w ws ih =>
    obtain ⟨hle, hread⟩ := ih
    rw [pathTokens, List.cons_append, List.cons_append]
    refine ⟨Nat.le_succ_of_le (Nat.le_succ_of_le hle), ?_⟩
    rw [readPath, hread]

theorem readsPrimary_path (h : pathType? w ws = some t) :
    ReadsPrimary (.word w :: pathTokens ws) t := by
  intro rest hrest
  obtain ⟨_, hread⟩ := readPath_pathTokens ws hrest
  rw [List.cons_append]
  rw [Leaves, readPrimary, hread]
  dsimp only
  rw [h]
  rfl

theorem isPlainKey_of_isIdentifier (h : isIdentifier w) : isPlainKey w := by
  obtain ⟨⟨c, hc, hstarts⟩, hcontinues, -⟩ := isIdentifier_iff.1 h
  obtain ⟨cs, hcs⟩ := List.head?_eq_some_iff.1 hc
  rw [hcs] at hcontinues
  refine isPlainKey_iff.2 ⟨c, cs, hcs, ?_, fun d hd ↦ hcontinues d (List.mem_cons_of_mem c hd)⟩
  have hdigit : c.isDigit = false := by
    by_contra hdigit
    rw [Bool.not_eq_false] at hdigit
    have htable := Text.forall_ascii (p := fun c ↦ !c.isDigit || !startsIdentifier c) (by decide)
      (Text.ascii_of_isAlphanum (Text.isAlphanum_of_isDigit hdigit))
    simp [hdigit, hstarts] at htable
  rw [startsWord, hdigit, hcontinues c List.mem_cons_self]
  rfl

theorem pathType?_of_isTypeName (hws : ∀ v ∈ w :: ws, isIdentifier v)
    (hkeyword : Text.join "." (w :: ws) ∉ typeKeywords) (hoperator : w ∉ typeOperators) :
    pathType? w ws = some (.named (Text.join "." (w :: ws))) := by
  have hreserved : w ∉ reservedWords := (isIdentifier_iff.1 (hws w List.mem_cons_self)).2.2
  have hlookup : typeWords.lookup (Text.join "." (w :: ws)) = none := by
    refine List.lookup_eq_none_iff.2 fun entry hentry ↦ bne_iff_ne.2 fun heq ↦ hkeyword ?_
    rw [heq]
    exact List.mem_append_left _ (List.mem_map_of_mem hentry)
  have hfree : ¬(Text.join "." (w :: ws) ∈ typeKeywords ∨ w ∈ typeOperators ∨ w ∈ reservedWords) :=
    not_or.2 ⟨hkeyword, not_or.2 ⟨hoperator, hreserved⟩⟩
  rw [pathType?, hlookup]
  exact if_neg hfree

end

end ApiClient.TypeScript
