import ApiClient.Proofs.Compile.Histories

/-!
# Invariants of a compilation

What every step of a plan preserves is preserved by compiling a schema, as long as the steps of the
references that are met preserve it too. The schemas that are compiled on the way may be known to
have some property, if it passes from each schema to its parts and to what its references lead to.
-/

namespace ApiClient

open TypeScript

namespace Build

variable {I : Context → Prop} {α β : Type}

/-- If a step succeeds, then what held of the context before it holds of the one after it. -/
def Preserves (I : Context → Prop) (b : Build α) : Prop :=
  ∀ ctx x ctx', I ctx → b.outcome ctx = (.ok x, ctx') → I ctx'

namespace Preserves

theorem of_keeps {γ : Type} {part : Context → γ} {b : Build α} (h : b.Keeps part)
    (hI : ∀ ctx ctx', part ctx' = part ctx → I ctx → I ctx') : b.Preserves I := by
  intro ctx x ctx' hctx hout
  have hpart := h ctx
  rw [hout] at hpart
  exact hI ctx ctx' hpart hctx

theorem of_still {b : Build α} (h : b.Keeps id) : b.Preserves I :=
  of_keeps h fun ctx ctx' heq hctx ↦ (show ctx' = ctx from heq) ▸ hctx

theorem pure (a : α) : (Pure.pure a : Build α).Preserves I :=
  of_still (.pure a)

theorem lift (x : Except CompileError α) : (liftM x : Build α).Preserves I :=
  of_still (.lift x)

theorem ofResolve (x : Except ResolveError α) : (Build.ofResolve x).Preserves I :=
  of_still (.ofResolve x)

theorem bind {b : Build α} {f : α → Build β} (hb : b.Preserves I)
    (hf : ∀ a, (f a).Preserves I) : (b >>= f).Preserves I := by
  intro ctx y ctx' hctx hout
  obtain ⟨x, ctx₁, hx, hy⟩ := outcome_bind_eq_ok.1 hout
  exact hf x ctx₁ y ctx' (hb ctx x ctx₁ hctx hx) hy

theorem ofResolve_bind {x : Except ResolveError α} {f : α → Build β}
    (hf : ∀ a, x = .ok a → (f a).Preserves I) : (Build.ofResolve x >>= f).Preserves I := by
  intro ctx y ctx' hctx hout
  obtain ⟨a, ctx₁, ha, hy⟩ := outcome_bind_eq_ok.1 hout
  rw [outcome_ofResolve, Prod.mk.injEq] at ha
  obtain ⟨hx, rfl⟩ := ha
  cases x with
  | error e => cases hx
  | ok b =>
    cases hx
    exact hf a rfl ctx y ctx' hctx hy

end Preserves

end Build

/-- Something that holds of contexts does not depend on the tables, and lasts when a type or an
enumeration is declared for a schema of some kind under a name. -/
structure Lasts (H : RefOr Schema → Prop) (N : RefOr Schema → String → Prop)
    (I : Context → Prop) : Prop where
  tables : ∀ ctx ctx' : Context, ctx'.functionNames = ctx.functionNames →
    ctx'.typeDeclarations = ctx.typeDeclarations → ctx'.enumDeclarations = ctx.enumDeclarations →
    I ctx → I ctx'
  type : ∀ (ctx : Context) s name mode counts t, N (.inline s) name → I ctx →
    I { ctx with
      typeDeclarations := ctx.typeDeclarations ++
        [.typeAlias (Names.allocate (toIdentifier name true mode) counts).1 t] }
  enum : ∀ (ctx : Context) s name text counts enumName members, H (.inline s) →
    N (.inline s) name → Names.allocate (s.proposal name) ctx.typeNames = (enumName, counts) →
    enumMembers (s.enumValues.getD []) s.memberNames = .ok members → I ctx →
    I (ctx.enterEnum counts (s.proposal name) text enumName members)

namespace Lasts

variable {H : RefOr Schema → Prop} {N : RefOr Schema → String → Prop} {I : Context → Prop}

theorem of_keeps (h : Lasts H N I) {α : Type} {b : Build α}
    (hb : b.Keeps fun ctx ↦ (ctx.functionNames, ctx.typeDeclarations, ctx.enumDeclarations)) :
    b.Preserves I := by
  refine .of_keeps hb fun ctx ctx' heq ↦ ?_
  simp only [Prod.mk.injEq] at heq
  exact h.tables ctx ctx' heq.1 heq.2.1 heq.2.2

theorem declareEnum (h : Lasts H N I) {s : Schema} {name : String} (hs : H (.inline s))
    (hname : N (.inline s) name) : (ApiClient.declareEnum s name).Preserves I := by
  intro ctx t ctx' hctx hout
  obtain ⟨text, -, ⟨-, rfl⟩ | ⟨-, hnew⟩⟩ := Build.declareEnum_eq_ok.1 hout
  · exact hctx
  · obtain ⟨enumName, counts, members, hallocate, -, hmembers, -, rfl⟩ := Build.newEnum_eq_ok.1 hnew
    exact h.enum ctx s name text counts enumName members hs hname hallocate hmembers hctx

theorem simpleType (h : Lasts H N I) (env : Env) {s : Schema} {name : Option String}
    (hs : H (.inline s)) (hname : ∀ n ∈ name, N (.inline s) n) :
    (simpleType env s name).Preserves I := by
  unfold ApiClient.simpleType
  repeat' split
  all_goals first
    | exact h.declareEnum hs (hname _ rfl)
    | exact .lift _

theorem admits (h : Lasts H N I) (env : Env) :
    AdmitsReferencesIn env H N fun _ b ↦ b.Preserves I where
  lift := .lift
  resolve := .ofResolve
  simple _ _ := h.simpleType env
  get := .of_still .get
  allocate _ _ _ _ := h.of_keeps (.allocate (fun _ _ ↦ rfl) _)
  register _ _ := h.of_keeps fun _ ↦ rfl
  declareType s name mode counts t hname := by
    intro ctx _ ctx' hctx hout
    cases hout
    exact h.type ctx s name mode counts t hname hctx
  declareEnum _ _ := h.declareEnum
  marks node := h.of_keeps (Env.keeps_nodeMarks (fun _ _ ↦ rfl) env node)

end Lasts

/-- The declared types have names of one kind, and the declared enumerations have names and members
of another kind. -/
structure Context.Kinds (T : String → Prop) (E : String → List EnumMember → Prop) (ctx : Context) :
    Prop where
  types : ∀ d ∈ ctx.typeDeclarations, ∃ name t, d = .typeAlias name t ∧ T name
  enums : ∀ d ∈ ctx.enumDeclarations, ∃ name members, d = .enum name members ∧ E name members

theorem lasts_kinds {H : RefOr Schema → Prop} {N : RefOr Schema → String → Prop}
    {T : String → Prop} {E : String → List EnumMember → Prop}
    (hT : ∀ s name mode counts, N (.inline s) name →
      T (Names.allocate (toIdentifier name true mode) counts).1)
    (hE : ∀ s name counts members, H (.inline s) → N (.inline s) name →
      enumMembers (s.enumValues.getD []) s.memberNames = .ok members →
      E (Names.allocate (s.proposal name) counts).1 members) :
    Lasts H N (Context.Kinds T E) where
  tables ctx ctx' _ htypes henums hctx := ⟨htypes ▸ hctx.types, henums ▸ hctx.enums⟩
  type ctx s name mode counts t hname hctx := by
    refine ⟨fun d hd ↦ ?_, hctx.enums⟩
    rcases List.mem_append.1 hd with hd | hd
    · exact hctx.types d hd
    · exact ⟨_, t, List.mem_singleton.1 hd, hT s name mode counts hname⟩
  enum ctx s name text counts enumName members hs hname hallocate hmembers hctx := by
    refine ⟨hctx.types, fun d hd ↦ ?_⟩
    rcases List.mem_append.1 hd with hd | hd
    · exact hctx.enums d hd
    · refine ⟨enumName, members, List.mem_singleton.1 hd, ?_⟩
      have henum := hE s name ctx.typeNames members hs hname hmembers
      rwa [hallocate] at henum

theorem preserves_reserve {T : String → Prop} {E : String → List EnumMember → Prop}
    (wanted : String) : (Build.reserve wanted).Preserves (Context.Kinds T E) := by
  intro ctx name ctx' hctx hout
  cases hout
  exact ⟨hctx.types, hctx.enums⟩

/-! ## What is compiled on the way -/

section

variable {env : Env} {H H' : RefOr Schema → Prop} {N N' : RefOr Schema → String → Prop}
  {M M' : String → Prop}

theorem Inherited.and (h : Inherited H N M) (h' : Inherited H' N' M') :
    Inherited (fun c ↦ H c ∧ H' c) (fun c name ↦ N c name ∧ N' c name) fun path ↦
      M path ∧ M' path where
  ref path hc := ⟨h.ref path hc.1, h'.ref path hc.2⟩
  target s d path hs hd hp := ⟨h.target s d path hs.1 hd hp, h'.target s d path hs.2 hd hp⟩
  part s c hs hc := ⟨h.part s c hs.1 hc, h'.part s c hs.2 hc⟩
  key s ps name c hs hps hc := ⟨h.key s ps name c hs.1 hps hc, h'.key s ps name c hs.2 hps hc⟩

theorem Leads.and (h : Leads env H N M) (h' : Leads env H' N' M') :
    Leads env (fun c ↦ H c ∧ H' c) (fun c name ↦ N c name ∧ N' c name) fun path ↦
      M path ∧ M' path where
  schema path plain s hp hs := ⟨h.schema path plain s hp.1 hs, h'.schema path plain s hp.2 hs⟩
  name path plain s hp hs := ⟨h.name path plain s hp.1 hs, h'.name path plain s hp.2 hs⟩

end

namespace Env

/-- The nodes that can be come to from some nodes: the parts of a schema, the references of its
mapping, and the schemas that references lead to. -/
inductive Visits (env : Env) (start : RefOr Schema → Prop) : RefOr Schema → Prop where
  | start {c : RefOr Schema} (h : start c) : Visits env start c
  | part {s : Schema} {c : RefOr Schema} (h : Visits env start (.inline s)) (hc : s.Part c) :
      Visits env start c
  | mapped {s : Schema} {d : Discriminator} {path : String} (h : Visits env start (.inline s))
      (hd : s.discriminator = some d) (hpath : path ∈ Table.values d.mapping) :
      Visits env start (.ref path)
  | follow {path : String} {plain : Bool} {s : Schema} (h : Visits env start (.ref path))
      (hs : env.target path plain = .ok s) : Visits env start (.inline s)

/-- The names that such nodes are compiled under: that of the property for which a node stands, and
for a schema that a reference leads to its title or else the name of its key. -/
inductive VisitsAs (env : Env) (start : RefOr Schema → Prop) : RefOr Schema → String → Prop where
  | property {s : Schema} {ps : Table (RefOr Schema)} {name : String} {c : RefOr Schema}
      (h : env.Visits start (.inline s)) (hps : s.properties = some ps) (hc : (name, c) ∈ ps) :
      VisitsAs env start c name
  | reference {path : String} {plain : Bool} {s : Schema} (h : env.Visits start (.ref path))
      (hs : env.target path plain = .ok s) :
      VisitsAs env start (.inline s)
        (s.title.getD (Pointer.displayName (env.aliasKey path plain)))

variable (env : Env) (start : RefOr Schema → Prop)

theorem inherited_visits : Inherited (env.Visits start) (env.VisitsAs start) fun path ↦
    env.Visits start (.ref path) where
  ref _ h := h
  target _ _ _ h hd hpath := .mapped h hd hpath
  part _ _ h hc := .part h hc
  key _ _ _ _ h hps hc := .property h hps hc

theorem leads_visits : Leads env (env.Visits start) (env.VisitsAs start) fun path ↦
    env.Visits start (.ref path) where
  schema _ _ _ h hs := .follow h hs
  name _ _ _ h hs := .reference h hs

end Env

/-- What lasts through the declarations for schemas and names of some kind is preserved by compiling
a schema of that kind. -/
theorem Lasts.schemaType {env : Env} {H : RefOr Schema → Prop}
    {N : RefOr Schema → String → Prop} {M : String → Prop} {I : Context → Prop} (hI : Lasts H N I) (hH : Inherited H N M) (hleads : Leads env H N M)
    {node : Option (RefOr Schema)} (hnode : ∀ c ∈ node, H c) (mode : Mode) :
    (env.schemaType node none mode).Preserves I := by
  have hA := hI.admits env
  let contract : Contract :=
    { pre := fun _ path _ _ ctx ↦ M path ∧ I ctx, post := fun _ _ _ _ _ _ ctx' _ ↦ I ctx' }
  have hensures {α : Type} {x : Plan α}
      (hx : x.Within (fun _ b ↦ b.Preserves I) fun path _ _ ↦ M path) (around : Around)
      (ctx : Context) (hctx : I ctx) : x.Ensures env contract around ctx fun _ ctx' _ ↦ I ctx' := by
    refine Plan.Ensures.of_within (I := fun ctx _ ↦ I ctx) ?_ ?_ hx [] hctx
    · exact fun σ b hb ctx x ctx₁ _ hout hctx ↦ hb ctx x ctx₁ hctx hout
    · exact fun path mode plain hpath ctx _ hctx ↦ ⟨⟨hpath, hctx⟩, fun _ _ _ h ↦ h⟩
  have hkept : contract.Kept env := fun w path mode plain ctx hpre ↦
    hensures (hA.referencePlan_within hH hleads hpre.1 mode plain) _ ctx hpre.2
  have hplan : (schemaPlan env node none mode).Within (fun _ b ↦ b.Preserves I)
      fun path _ _ ↦ M path := by
    cases node with
    | none => exact .done _
    | some c =>
      exact Inherited.nodeType_within ⟨fun path h _ ↦ hH.ref path h, fun s d path h hd hp _ ↦
        hH.target s d path h hd hp, hH.part, hH.key⟩ hA.toAdmitsIn c none (hnode c rfl) (by simp)
  exact fun ctx t ctx' hctx hout ↦ Env.outcome_schemaType (Q := fun _ ctx' ↦ I ctx') hkept hout
    (hensures hplan _ ctx hctx)

end ApiClient
