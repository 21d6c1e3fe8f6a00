import ApiClient.Proofs.Compile.Differences
import ApiClient.Proofs.Compile.Enums
import Mathlib.Data.List.Forall2

/-!
# Where the words of a type come from

The words of a type follow the sites of its schema: a property that is shown gives the name of a
member, a reference the name under which its key is entered. Each word is traced back to what it
comes from. Which variant a reference names is all that the schema and the mode leave open.
-/

namespace ApiClient

open TypeScript

/-- A site in a schema from which words of its type come. -/
inductive Site where
  /-- A property that tells the variants of a union apart. -/
  | tag (property : String)
  | property (name : String) (c : RefOr Schema)
  | ref (path : String) (plain : Bool)
  | inline (s : Schema)
  /-- The values of a schema without parts. -/
  | values

def RefOr.site : RefOr Schema → Site
  | .ref path => .ref path false
  | .inline s => .inline s

def Discriminator.site (d : Discriminator) : Site :=
  .tag (d.property.getD "")

def Schema.tagSites (parent child : Schema) : List Site :=
  match parent.discriminator, child.component with
  | some d, some path => if d.mapping.any fun entry ↦ entry.2 == path then [d.site] else []
  | _, _ => []

def indexSites : Option (Additional Schema) → List Site
  | some (.schema c) => [c.site]
  | some (.allowed _) | none => []

namespace Env

variable (env : Env)

def extensionSites (s : Schema) (path : String) : List Site :=
  match env.snapshot.resolve Schema.ofNode path with
  | .ok parent =>
    if env.isDiscriminating parent then parent.tagSites s ++ [.ref path true]
    else [.ref path false]
  | .error _ => []

def factorSites (s : Schema) : RefOr Schema → List Site
  | .ref path => env.extensionSites s path
  | .inline c => [.inline c]

variable (mode : Mode)

def propertySites (property : String × RefOr Schema) : List Site :=
  if mode.keeps (env.ownMarks property.2) then [.property property.1 property.2, property.2.site]
  else []

def objectSites (s : Schema) : List Site :=
  (s.properties.getD []).flatMap (env.propertySites mode) ++ indexSites s.additional

/-- The sites of a schema in a mode, by the keyword that decides. -/
def sites (s : Schema) : List Site :=
  match s.oneOf, s.anyOf, env.mapping? s, s.allOf, s.prefixItems, s.items with
  | some cs, _, _, _, _, _ =>
    match s.discriminator with
    | some d => (d.targets cs).flatMap fun path ↦ [d.site, .ref path false]
    | none => cs.map RefOr.site
  | none, some cs, _, _, _, _ => cs.map RefOr.site
  | none, none, some mapping, _, _, _ => (Table.values mapping).map (.ref · false)
  | none, none, none, some cs, _, _ =>
    cs.flatMap (env.factorSites s) ++ if s.hasObjectShape then env.objectSites mode s else []
  | none, none, none, none, some cs, _ => cs.map RefOr.site
  | none, none, none, none, none, some c => [c.site]
  | none, none, none, none, none, none =>
    if s.hasObjectShape then env.objectSites mode s else [.values]

end Env

/-- What a word of a type comes from. -/
inductive Origin where
  | tag (property : String)
  | property (name : String) (c : RefOr Schema)
  /-- The name of a key for a mode. -/
  | variant (key : String) (mode : Mode)
  | enumeration
  | blob

/-- The origins of the words for sites in a schema, in their order. -/
inductive Env.Unfolds (env : Env) (mode : Mode) : List Site → List Origin → Prop where
  | nil : Unfolds env mode [] []
  | tag {property : String} {rest : List Site} {origins : List Origin}
      (h : Unfolds env mode rest origins) :
      Unfolds env mode (.tag property :: rest) (.tag property :: origins)
  | property {name : String} {c : RefOr Schema} {rest : List Site} {origins : List Origin}
      (h : Unfolds env mode rest origins) :
      Unfolds env mode (.property name c :: rest) (.property name c :: origins)
  | ref {path : String} {plain : Bool} (variant : Mode) {rest : List Site}
      {origins : List Origin} (h : Unfolds env mode rest origins) :
      Unfolds env mode (.ref path plain :: rest)
        (.variant (env.aliasKey path plain) variant :: origins)
  | enumeration {path : String} {plain : Bool} {rest : List Site} {origins : List Origin}
      (h : Unfolds env mode rest origins) :
      Unfolds env mode (.ref path plain :: rest) (.enumeration :: origins)
  | values {own : List Origin} (hown : own = [] ∨ own = [.blob] ∨ own = [.enumeration])
      {rest : List Site} {origins : List Origin} (h : Unfolds env mode rest origins) :
      Unfolds env mode (.values :: rest) (own ++ origins)
  | inline {s : Schema} {rest : List Site} {origins : List Origin}
      (h : Unfolds env mode (env.sites mode s ++ rest) origins) :
      Unfolds env mode (.inline s :: rest) origins

theorem Env.Unfolds.append {env : Env} {mode : Mode} {sites more : List Site}
    {origins others : List Origin} (h : env.Unfolds mode sites origins)
    (hmore : env.Unfolds mode more others) :
    env.Unfolds mode (sites ++ more) (origins ++ others) := by
  induction h with
  | nil => exact hmore
  | tag _ ih => exact .tag ih
  | property _ ih => exact .property ih
  | ref variant _ ih => exact .ref variant ih
  | enumeration _ ih => exact .enumeration ih
  | values hown _ ih =>
    rw [List.append_assoc]
    exact .values hown ih
  | inline _ ih => exact .inline (List.append_assoc .. ▸ ih)

namespace Context

/-- The name of a key that is for a mode alone. -/
def name? (ctx : Context) (key : String) (mode : Mode) : Option String :=
  (Table.get? key ctx.aliases).bind (·.own mode)

inductive Reads (ctx : Context) : Origin → Word → Prop where
  | tag (property : String) : Reads ctx (.tag property) (.member property)
  | property (name : String) (c : RefOr Schema) : Reads ctx (.property name c) (.member name)
  | variant {key name : String} {mode : Mode} (h : ctx.name? key mode = some name) :
      Reads ctx (.variant key mode) (.type name)
  | enumeration {name : String} (h : ctx.IsEnum name) : Reads ctx .enumeration (.type name)
  | blob : Reads ctx .blob (.type "Blob")

structure Below (ctx ctx' : Context) : Prop where
  names : ∀ key mode name, ctx.name? key mode = some name → ctx'.name? key mode = some name
  enums : ctx.enumDeclarations ⊆ ctx'.enumDeclarations

theorem Below.refl (ctx : Context) : ctx.Below ctx where
  names := fun _ _ _ h ↦ h
  enums := List.Subset.refl _

theorem Below.trans {ctx ctx' ctx'' : Context} (h : ctx.Below ctx') (h' : ctx'.Below ctx'') :
    ctx.Below ctx'' where
  names := fun key mode name hname ↦ h'.names key mode name (h.names key mode name hname)
  enums := List.Subset.trans h.enums h'.enums

theorem Reads.mono {ctx ctx' : Context} {origin : Origin} {word : Word} (h : ctx.Reads origin word)
    (hbelow : ctx.Below ctx') : ctx'.Reads origin word := by
  cases h with
  | tag => exact .tag _
  | property => exact .property _ _
  | variant h => exact .variant (hbelow.names _ _ _ h)
  | enumeration h => exact .enumeration (h.mono hbelow.enums)
  | blob => exact .blob

end Context

theorem exists_of_forall₂ {α β : Type} {R : α → β → Prop} {xs : List α} {ys : List β}
    (h : List.Forall₂ R xs ys) {x : α} (hx : x ∈ xs) : ∃ y ∈ ys, R x y := by
  induction h with
  | nil => cases hx
  | cons hhead _ ih =>
    rcases List.mem_cons.1 hx with rfl | hx
    · exact ⟨_, List.mem_cons_self, hhead⟩
    · exact (ih hx).imp fun y hy ↦ hy.imp_left (List.mem_cons_of_mem _)

/-- The words that a mode has for sites in a schema, each with its origin. The types that are named
are those of the mode and of the base mode. -/
structure Traced (env : Env) (ctx : Context) (mode : Mode) (sites : List Site)
    (words : List Word) (origins : List Origin) : Prop where
  unfolds : env.Unfolds mode sites origins
  variants : ∀ key variant, .variant key variant ∈ origins → variant = .base ∨ variant = mode
  reads : List.Forall₂ ctx.Reads origins words

abbrev Traces (env : Env) (ctx : Context) (mode : Mode) (sites : List Site)
    (words : List Word) : Prop :=
  ∃ origins, Traced env ctx mode sites words origins

namespace Traced

variable {env : Env} {ctx ctx' : Context} {mode : Mode} {sites more : List Site}
  {words words' : List Word} {origins others : List Origin}

theorem mono (h : Traced env ctx mode sites words origins) (hbelow : ctx.Below ctx') :
    Traced env ctx' mode sites words origins where
  unfolds := h.unfolds
  variants := h.variants
  reads := h.reads.imp fun _ _ hreads ↦ hreads.mono hbelow

theorem append (h : Traced env ctx mode sites words origins)
    (hmore : Traced env ctx mode more words' others) :
    Traced env ctx mode (sites ++ more) (words ++ words') (origins ++ others) where
  unfolds := h.unfolds.append hmore.unfolds
  variants := fun key variant hmem ↦ (List.mem_append.1 hmem).elim (h.variants key variant)
    (hmore.variants key variant)
  reads := List.rel_append h.reads hmore.reads

theorem origin_of_mem (h : Traced env ctx mode sites words origins) {word : Word}
    (hword : word ∈ words) : ∃ origin ∈ origins, ctx.Reads origin word :=
  exists_of_forall₂ h.reads.flip hword

end Traced

namespace Traces

variable {env : Env} {ctx ctx' : Context} {mode : Mode} {sites more : List Site}
  {words words' : List Word}

theorem mono (h : Traces env ctx mode sites words) (hbelow : ctx.Below ctx') :
    Traces env ctx' mode sites words :=
  h.imp fun _ htraced ↦ htraced.mono hbelow

theorem nil : Traces env ctx mode [] [] :=
  ⟨[], .nil, by simp, .nil⟩

theorem append (h : Traces env ctx mode sites words) (hmore : Traces env ctx mode more words') :
    Traces env ctx mode (sites ++ more) (words ++ words') := by
  obtain ⟨origins, h⟩ := h
  obtain ⟨others, hmore⟩ := hmore
  exact ⟨_, h.append hmore⟩

theorem tag (property : String) : Traces env ctx mode [.tag property] [.member property] :=
  ⟨[.tag property], .tag .nil, by simp, .cons (.tag property) .nil⟩

theorem property (name : String) (c : RefOr Schema) :
    Traces env ctx mode [.property name c] [.member name] :=
  ⟨[.property name c], .property .nil, by simp, .cons (.property name c) .nil⟩

theorem inline {s : Schema} (h : Traces env ctx mode (env.sites mode s) words) :
    Traces env ctx mode [.inline s] words := by
  obtain ⟨origins, h⟩ := h
  exact ⟨origins, .inline ((List.append_nil _).symm ▸ h.unfolds), h.variants, h.reads⟩

end Traces

/-- The names of a reference that a plan of a mode may be given. -/
def Context.Answers (ctx : Context) (env : Env) (path : String) (mode : Mode) (plain : Bool)
    (t : Ty) : Prop :=
  ∃ name, t = .named name ∧
    ((∃ variant, (variant = .base ∨ variant = mode) ∧
      ctx.name? (env.aliasKey path plain) variant = some name) ∨ ctx.IsEnum name)

/-- A step has come to a result on the way to a context. -/
def Context.Came (ctx : Context) {σ : Type} (b : Build σ) (x : σ) : Prop :=
  ∃ ctx₀ ctx₁, ctx₀.EnumsDeclared ∧ b.outcome ctx₀ = (.ok x, ctx₁) ∧
    ctx₁.enumDeclarations ⊆ ctx.enumDeclarations

section

variable {env : Env} {ctx ctx' : Context} {mode : Mode}

theorem Context.Answers.mono {path : String} {plain : Bool} {t : Ty}
    (h : ctx.Answers env path mode plain t) (hbelow : ctx.Below ctx') :
    ctx'.Answers env path mode plain t := by
  obtain ⟨name, ht, ⟨variant, hvariant, hname⟩ | henum⟩ := h
  · exact ⟨name, ht, .inl ⟨variant, hvariant, hbelow.names _ _ _ hname⟩⟩
  · exact ⟨name, ht, .inr (henum.mono hbelow.enums)⟩

theorem Context.Came.mono {σ : Type} {b : Build σ} {x : σ} (h : ctx.Came b x)
    (hbelow : ctx.Below ctx') : ctx'.Came b x := by
  obtain ⟨ctx₀, ctx₁, henums, hout, hsub⟩ := h
  exact ⟨ctx₀, ctx₁, henums, hout, List.Subset.trans hsub hbelow.enums⟩

theorem Context.Came.lift {σ : Type} {x : Except CompileError σ} {a : σ}
    (h : ctx.Came (liftM x : Build σ) a) : x = .ok a := by
  obtain ⟨ctx₀, ctx₁, -, hout, -⟩ := h
  exact congrArg Prod.fst hout

theorem Context.Came.ofResolve {σ : Type} {x : Except ResolveError σ} {a : σ}
    (h : ctx.Came (Build.ofResolve x) a) : x = .ok a := by
  obtain ⟨ctx₀, ctx₁, -, hout, -⟩ := h
  exact (Build.ok_of_outcome_ofResolve hout).1

theorem Traces.ref {path : String} {plain : Bool} {t : Ty}
    (h : ctx.Answers env path mode plain t) : Traces env ctx mode [.ref path plain] t.words := by
  obtain ⟨name, rfl, ⟨variant, hvariant, hname⟩ | henum⟩ := h
  · refine ⟨[.variant _ variant], .ref variant .nil, ?_, ?_⟩
    · intro key other hmem
      cases List.mem_singleton.1 hmem
      exact hvariant
    · exact Ty.words_named name ▸ .cons (.variant hname) .nil
  · exact ⟨[.enumeration], .enumeration .nil, by simp,
      Ty.words_named name ▸ .cons (.enumeration henum) .nil⟩

theorem Traces.values {s : Schema} {name : Option String} {t : Ty}
    (h : ctx.Came (simpleType env s name) t) : Traces env ctx mode [.values] t.words := by
  obtain ⟨ctx₀, ctx₁, henums, hout, hsub⟩ := h
  obtain ⟨-, -, ht | ht | ⟨n, ht, henum⟩⟩ := Build.simpleType_ok hout henums <;> rw [ht]
  · exact ⟨[], .values (.inl rfl) .nil, by simp, .nil⟩
  · exact ⟨[.blob], .values (.inr (.inl rfl)) .nil, by simp, .cons .blob .nil⟩
  · exact ⟨[.enumeration], .values (.inr (.inr rfl)) .nil, by simp,
      .cons (.enumeration (henum.mono hsub)) .nil⟩

end

@[simp] theorem words_orNull (s : Schema) (t : Ty) : (orNull s t).words = t.words := by
  unfold orNull
  split <;> simp

@[simp] theorem words_optionalType (env : Env) (t : Ty) : (env.optionalType t).words = t.words := by
  unfold Env.optionalType
  split <;> simp

@[simp] theorem words_tag (property value : String) :
    (tag property value).words = [.member property] := by
  simp [tag, Ty.text]

end ApiClient
