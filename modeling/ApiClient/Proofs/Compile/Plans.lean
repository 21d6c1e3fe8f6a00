import ApiClient.Proofs.Compile.Steps
import ApiClient.Proofs.Document.References

/-!
# What plans consist of

The plan of a schema consists of few kinds of steps, and the references that it meets are those that
stand in the schema, each in the mode in which the schema is compiled. What holds of every step and
of every reference therefore carries over to whole plans, without a look at how they are made.
-/

namespace ApiClient

open TypeScript

namespace Plan

variable {α β : Type}

@[simp] theorem pure_eq (a : α) : (pure a : Plan α) = done a := rfl

@[simp] theorem done_bind (a : α) (f : α → Plan β) : (done a >>= f) = f a := rfl

@[simp] theorem act_bind {σ : Type} (b : Build σ) (next : σ → Plan α) (f : α → Plan β) :
    (act b next >>= f) = act b fun x ↦ next x >>= f := rfl

@[simp] theorem meet_bind (path : String) (mode : Mode) (plain : Bool) (next : Ty → Plan α)
    (f : α → Plan β) :
    (meet path mode plain next >>= f) = meet path mode plain fun t ↦ next t >>= f := rfl

theorem bind_done (x : Plan α) : (x >>= done) = x := by
  induction x with
  | done a => rfl
  | act b next ih => exact congrArg (act b) (funext ih)
  | meet path mode plain next ih => exact congrArg (meet path mode plain) (funext ih)

theorem bind_bind {γ : Type} (x : Plan α) (f : α → Plan β) (g : β → Plan γ) :
    (x >>= f >>= g) = (x >>= fun a ↦ f a >>= g) := by
  induction x with
  | done a => rfl
  | act b next ih => exact congrArg (act b) (funext ih)
  | meet path mode plain next ih => exact congrArg (meet path mode plain) (funext ih)

instance : LawfulMonad Plan := .mk' Plan bind_done (fun _ _ ↦ rfl) bind_bind

variable (A : (σ : Type) → Build σ → Prop) (M : String → Mode → Bool → Prop)

/-- Every step of a plan is of some kind, and so is every reference that it meets. -/
def Within : Plan α → Prop
  | done _ => True
  | act action next =>
    A _ action ∧ ∀ ctx x ctx', action.outcome ctx = (.ok x, ctx') → (next x).Within
  | meet path mode plain next => M path mode plain ∧ ∀ t, (next t).Within

variable {A M}

namespace Within

theorem done (a : α) : Within A M (.done a) := trivial

theorem act {b : Build α} (h : A _ b) : Within A M (.act b .done) :=
  ⟨h, fun _ _ _ _ ↦ trivial⟩

theorem follow {path : String} {mode : Mode} {plain : Bool} (h : M path mode plain) :
    Within A M (Plan.follow path mode plain) :=
  ⟨h, fun _ ↦ trivial⟩

theorem bind {x : Plan α} {f : α → Plan β} (hx : Within A M x) (hf : ∀ a, Within A M (f a)) :
    Within A M (x >>= f) := by
  induction x with
  | done a => exact hf a
  | act b next ih =>
    obtain ⟨hb, hnext⟩ := hx
    exact ⟨hb, fun ctx x ctx' h ↦ ih x (hnext ctx x ctx' h)⟩
  | meet path mode plain next ih =>
    obtain ⟨hm, hnext⟩ := hx
    exact ⟨hm, fun t ↦ ih t (hnext t)⟩

/-- A step without effect, of which only the result that it has matters. -/
theorem lift_bind {x : Except CompileError α} {f : α → Plan β} (h : A _ (liftM x : Build α))
    (hf : ∀ a, x = .ok a → Within A M (f a)) : Within A M ((liftM x : Plan α) >>= f) := by
  refine ⟨h, fun ctx a ctx' hout ↦ hf a ?_⟩
  rw [Build.outcome_lift x ctx] at hout
  exact congrArg Prod.fst hout

theorem ofResolve_bind {x : Except ResolveError α} {f : α → Plan β} (h : A _ (Build.ofResolve x))
    (hf : ∀ a, x = .ok a → Within A M (f a)) :
    Within A M ((liftM (Build.ofResolve x) : Plan α) >>= f) := by
  refine ⟨h, fun ctx a ctx' hout ↦ hf a ?_⟩
  have hfst := congrArg Prod.fst ((Build.outcome_ofResolve x ctx).symm.trans hout)
  cases x with
  | error e => exact nomatch (show Except.error (CompileError.reference e) = .ok a from hfst)
  | ok b => exact congrArg Except.ok (Except.ok.inj (show Except.ok b = .ok a from hfst))

/-- A step that gives out a name: it is one that is made from the wanted name. -/
theorem allocate_bind {wanted : String} {f : String → Plan α} (h : A _ (Build.allocate wanted))
    (hf : ∀ counts, Within A M (f (Names.allocate wanted counts).1)) :
    Within A M ((liftM (Build.allocate wanted) : Plan String) >>= f) := by
  refine ⟨h, fun ctx name ctx' hout ↦ ?_⟩
  have hname : (.ok name, ctx') = (Build.allocate wanted).outcome ctx := hout.symm
  cases hname
  exact hf ctx.typeNames

theorem mono {A' : (σ : Type) → Build σ → Prop} {M' : String → Mode → Bool → Prop} {x : Plan α}
    (h : Within A M x) (hA : ∀ σ b, A σ b → A' σ b)
    (hM : ∀ path mode plain, M path mode plain → M' path mode plain) : Within A' M' x := by
  induction x with
  | done a => trivial
  | act b next ih => exact ⟨hA _ b h.1, fun ctx x ctx' hout ↦ ih x (h.2 ctx x ctx' hout)⟩
  | meet path mode plain next ih => exact ⟨hM _ _ _ h.1, fun t ↦ ih t (h.2 t)⟩

end Within

end Plan

/-! ## Variants that a mapping does not cover -/

/-- The value and the reference of a variant that is not in a mapping. -/
def implicitEntry (path : String) : String × String := (Pointer.baseName path, path)

/-- The entries of variants that end in none of the names. -/
def implicitEntries (mapped : List String) (variants : List (RefOr Schema)) :
    List (String × String) :=
  ((variants.filterMap RefOr.path?).filter fun path ↦
    !mapped.contains (Pointer.baseName path)).map implicitEntry

section

variable {mapped : List String} {variants : List (RefOr Schema)} {value path : String}

theorem mem_implicitEntries : (value, path) ∈ implicitEntries mapped variants ↔
    .ref path ∈ variants ∧ Pointer.baseName path ∉ mapped ∧ value = Pointer.baseName path := by
  have href : path ∈ variants.filterMap RefOr.path? ↔ .ref path ∈ variants := by
    rw [List.mem_filterMap]
    refine ⟨?_, fun h ↦ ⟨_, h, rfl⟩⟩
    rintro ⟨c, hc, hpath⟩
    cases c with
    | inline s => cases hpath
    | ref other =>
      cases hpath
      exact hc
  have hnot : (!mapped.contains (Pointer.baseName path)) = true ↔
      Pointer.baseName path ∉ mapped := by
    rw [Bool.not_eq_true', ← Bool.not_eq_true, List.contains_iff_mem]
  rw [← href, ← hnot, ← and_assoc]
  constructor
  · intro h
    obtain ⟨other, hother, heq⟩ := List.mem_map.1 h
    cases heq
    exact ⟨List.mem_filter.1 hother, rfl⟩
  · rintro ⟨h, rfl⟩
    exact List.mem_map.2 ⟨path, List.mem_filter.2 h, rfl⟩

theorem implicitEntries_cons_ref : implicitEntries mapped (.ref path :: variants) =
    if mapped.contains (Pointer.baseName path) then implicitEntries mapped variants
    else implicitEntry path :: implicitEntries mapped variants := by
  unfold implicitEntries
  rw [List.filterMap_cons_some (show (RefOr.ref path : RefOr Schema).path? = some path from rfl),
    List.filter_cons]
  cases mapped.contains (Pointer.baseName path) <;> rfl

/-- There are entries for the other variants exactly if all variants are references. -/
theorem unmapped_eq_ok {property : String} {others : List (String × String)} :
    unmapped property mapped variants = .ok others ↔
      (∀ c ∈ variants, ∃ path, c = .ref path) ∧ others = implicitEntries mapped variants := by
  induction variants generalizing others with
  | nil => exact ⟨fun h ↦ ⟨List.forall_mem_nil _, (Except.ok.inj h).symm⟩, fun h ↦ h.2 ▸ rfl⟩
  | cons c rest ih =>
    cases c with
    | inline s =>
      refine ⟨nofun, fun h ↦ ?_⟩
      obtain ⟨path, hpath⟩ := h.1 _ List.mem_cons_self
      cases hpath
    | ref path =>
      rw [unmapped, bind_eq_ok, implicitEntries_cons_ref, List.forall_mem_cons]
      constructor
      · rintro ⟨others, hrest, hothers⟩
        obtain ⟨hrefs, rfl⟩ := ih.1 hrest
        exact ⟨⟨⟨path, rfl⟩, hrefs⟩, (Except.ok.inj hothers).symm⟩
      · rintro ⟨⟨-, hrefs⟩, rfl⟩
        exact ⟨_, ih.2 ⟨hrefs, rfl⟩, rfl⟩

theorem mem_of_unmapped {property : String} {others : List (String × String)}
    (h : unmapped property mapped variants = .ok others) {entry : String × String}
    (he : entry ∈ others) : .ref entry.2 ∈ variants := by
  rw [(unmapped_eq_ok.1 h).2] at he
  exact (mem_implicitEntries.1 he).1

end

/-! ## Plans of schemas -/

theorem discriminator_of_mapping? {env : Env} {s : Schema} {mapping : Table String}
    (h : env.mapping? s = some mapping) : ∃ d, s.discriminator = some d ∧ d.mapping = mapping := by
  unfold Env.mapping? at h
  split at h
  · obtain ⟨hmap, -⟩ := Option.filter_eq_some_iff.1 h
    simpa using hmap
  · simp at h

/-- What is asked of the steps in the plan of a schema that have no effect. -/
structure AdmitsEffectless (A : (σ : Type) → Build σ → Prop) : Prop where
  lift : ∀ {σ : Type} (x : Except CompileError σ), A _ (liftM x)
  resolve : ∀ {σ : Type} (x : Except ResolveError σ), A _ (Build.ofResolve x)

/-- What is asked of the steps in the plan of a schema. -/
structure Admits (env : Env) (A : (σ : Type) → Build σ → Prop) : Prop
    extends AdmitsEffectless A where
  simple : ∀ s name, A _ (simpleType env s name)

/-- What holds of a node holds of what stands in it: of its parts, and with `N` of its properties
under their names, and with `M` of the references. -/
structure Inherited (H : RefOr Schema → Prop) (N : RefOr Schema → String → Prop)
    (M : String → Prop) : Prop where
  ref : ∀ path, H (.ref path) → M path
  target : ∀ s d path, H (.inline s) → s.discriminator = some d →
    path ∈ Table.values d.mapping → M path
  part : ∀ s c, H (.inline s) → s.Part c → H c
  key : ∀ s ps name c, H (.inline s) → s.properties = some ps → (name, c) ∈ ps → N c name

/-- What is asked of the steps in the plan of a schema that has some inherited property. -/
structure AdmitsIn (env : Env) (H : RefOr Schema → Prop) (N : RefOr Schema → String → Prop)
    (A : (σ : Type) → Build σ → Prop) : Prop extends AdmitsEffectless A where
  simple : ∀ s name, H (.inline s) → (∀ n ∈ name, N (.inline s) n) → A _ (simpleType env s name)

theorem Admits.admitsIn {env : Env} {A : (σ : Type) → Build σ → Prop} (hA : Admits env A)
    (H : RefOr Schema → Prop) (N : RefOr Schema → String → Prop) : AdmitsIn env H N A where
  toAdmitsEffectless := hA.toAdmitsEffectless
  simple s name _ _ := hA.simple s name

theorem admits_still (env : Env) : Admits env fun _ b ↦ Build.Still b where
  simple := Build.still_simpleType env
  lift := .lift
  resolve := .ofResolve

section

variable {env : Env} {A : (σ : Type) → Build σ → Prop} {M : String → Mode → Bool → Prop}
  {mode : Mode}

open Plan (Within)

theorem taggedMembers_within (property : String) {entries : List (String × String)}
    (hM : ∀ entry ∈ entries, M entry.2 mode false) :
    Within A M (taggedMembers property mode entries) := by
  induction entries with
  | nil => exact .done _
  | cons entry rest ih =>
    refine .bind (.follow (hM _ List.mem_cons_self)) fun t ↦ ?_
    exact .bind (ih fun e he ↦ hM e (List.mem_cons_of_mem _ he)) fun _ ↦ .done _

theorem followAll_within {paths : List String} (hM : ∀ path ∈ paths, M path mode false) :
    Within A M (followAll mode paths) := by
  induction paths with
  | nil => exact .done _
  | cons path rest ih =>
    refine .bind (.follow (hM _ List.mem_cons_self)) fun t ↦ ?_
    exact .bind (ih fun p hp ↦ hM p (List.mem_cons_of_mem _ hp)) fun _ ↦ .done _

theorem taggedUnion_within (hA : AdmitsEffectless A) {cs : List (RefOr Schema)} {d : Discriminator}
    (hd : ∀ path ∈ Table.values d.mapping, M path mode false)
    (hcs : ∀ path, .ref path ∈ cs → M path mode false) : Within A M (taggedUnion cs d mode) := by
  refine .lift_bind (hA.lift _) fun property _ ↦ .lift_bind (hA.lift _) fun others hothers ↦ ?_
  refine .bind (taggedMembers_within property fun entry he ↦ ?_) fun _ ↦ .done _
  rcases List.mem_append.1 he with he | he
  · exact hd _ (List.mem_map_of_mem he)
  · exact hcs _ (mem_of_unmapped hothers he)

theorem extendedTypes_within (hA : AdmitsEffectless A) (s : Schema) {path : String}
    (hM : ∀ plain, M path mode plain) : Within A M (extendedTypes env s path mode) := by
  refine .ofResolve_bind (hA.resolve _) fun parent _ ↦ ?_
  split
  · exact .lift_bind (hA.lift _) fun own _ ↦ .bind (.follow (hM _)) fun t ↦ .done _
  · exact .bind (.follow (hM _)) fun t ↦ .done _

/-- The plan of a node with an inherited property compiles schemas with the property, and meets
references that stand in such schemas. -/
theorem Inherited.nodeType_within {H : RefOr Schema → Prop} {N : RefOr Schema → String → Prop}
    (hH : Inherited H N fun path ↦ ∀ plain, M path mode plain) (hA : AdmitsIn env H N A)
    (node : RefOr Schema) (name : Option String) (hnode : H node) (hname : ∀ n ∈ name, N node n) :
    Within A M (nodeType env node name mode) := by
  have heffectless := hA.toAdmitsEffectless
  revert hnode hname
  revert node name
  refine (nodeType.mutual_induct env mode
    (fun node name ↦ H node → (∀ n ∈ name, N node n) → Within A M (nodeType env node name mode))
    (fun s required name ↦ H (.inline s) → (∀ n ∈ name, N (.inline s) n) →
      Within A M (plainType env s required name mode))
    (fun s required ↦ H (.inline s) → Within A M (objectType env s required mode))
    (fun additional ↦ (∀ c, additional = some (.schema c) → H c) →
      Within A M (additionalType env additional mode))
    (fun properties required ↦ (∀ p ∈ properties, N p.2 p.1 ∧ H p.2) →
      Within A M (memberTypes env properties required mode))
    (fun s required nodes ↦ (∀ c ∈ nodes, H c) →
      Within A M (factorTypes env s required nodes mode))
    (fun nodes ↦ (∀ c ∈ nodes, H c) → Within A M (nodeTypes env nodes mode))
    ?ref ?inline ?tagged ?oneOf ?anyOf ?mapping ?allOf ?prefixItems ?items ?object ?simple ?members
    ?schema ?any ?closed ?absent ?noMember ?member ?hidden ?noFactor ?refFactor ?factor ?noNode
    ?node).1
  case ref =>
    intro name path hnode _
    rw [nodeType]
    exact .follow (hH.ref path hnode _)
  case inline =>
    intro name s ih hs hname
    rw [nodeType]
    exact .bind (ih hs hname) fun _ ↦ .done _
  case tagged =>
    intro s required name cs h d hd hs _
    rw [plainType_oneOf_tagged _ _ _ h hd]
    exact taggedUnion_within heffectless (fun path hp ↦ hH.target s d path hs hd hp _)
      fun path hp ↦ hH.ref path (hH.part s _ hs (.oneOf h hp)) _
  case oneOf =>
    intro s required name cs h hd ih hs _
    rw [plainType_oneOf _ _ _ h hd]
    exact .bind (ih fun c hc ↦ hH.part s c hs (.oneOf h hc)) fun _ ↦ .done _
  case anyOf =>
    intro s required name cs h₁ h ih hs _
    rw [plainType_anyOf _ _ _ h₁ h]
    exact .bind (ih fun c hc ↦ hH.part s c hs (.anyOf h hc)) fun _ ↦ .done _
  case mapping =>
    intro s required name mapping h₁ h₂ h hs _
    rw [plainType_mapping _ _ _ h₁ h₂ h]
    refine .bind (followAll_within fun path hp ↦ ?_) fun _ ↦ .done _
    obtain ⟨d, hd, rfl⟩ := discriminator_of_mapping? h
    exact hH.target s d path hs hd hp _
  case allOf =>
    intro s required name cs h₁ h₂ h h₃ ih ihobject hs _
    rw [plainType_allOf _ _ _ h₁ h₂ h₃ h]
    refine .bind (ih fun c hc ↦ hH.part s c hs (.allOf h hc)) fun ts ↦ ?_
    split
    · exact .bind (ihobject hs) fun _ ↦ .done _
    · exact .done _
  case prefixItems =>
    intro s required name cs h₁ h₂ h₄ h h₃ ih hs _
    rw [plainType_prefixItems _ _ _ h₁ h₂ h₃ h₄ h]
    exact .bind (ih fun c hc ↦ hH.part s c hs (.prefixItem h hc)) fun _ ↦ .done _
  case items =>
    intro s required name c h₁ h₂ h₄ h₅ h h₃ ih hs _
    rw [plainType_items _ _ _ h₁ h₂ h₃ h₄ h₅ h]
    exact .bind (ih (hH.part s c hs (.items h)) (by simp)) fun _ ↦ .done _
  case object =>
    intro s required name h₁ h₂ h₄ h₅ h₆ h₃ h ih hs _
    rw [plainType_object _ _ _ h₁ h₂ h₃ h₄ h₅ h₆ h]
    exact ih hs
  case simple =>
    intro s required name h₁ h₂ h₄ h₅ h₆ h₃ h hs hname
    rw [plainType_simple _ _ _ h₁ h₂ h₃ h₄ h₅ h₆ h]
    exact .act (hA.simple s name hs hname)
  case members =>
    intro s required ihmembers ihadditional hs
    rw [objectType]
    refine .bind (ihmembers fun p hp ↦ ?_) fun members ↦
      .bind (ihadditional fun c hc ↦ hH.part s c hs (.additional hc)) fun _ ↦ .done _
    obtain ⟨name, c⟩ := p
    cases hps : s.properties with
    | none => simp [hps] at hp
    | some ps =>
      rw [hps] at hp
      exact ⟨hH.key s ps name c hs hps hp, hH.part s c hs (.property hps hp)⟩
  case schema =>
    intro c ih hc
    rw [additionalType]
    exact .bind (ih (hc c rfl) (by simp)) fun _ ↦ .done _
  case any | closed | absent =>
    intro _
    rw [additionalType]
    exact .done _
  case noMember =>
    intro required _
    rw [memberTypes]
    exact .done _
  case member =>
    intro required name node rest hkeeps ihnode ihrest hps
    obtain ⟨hname, hnode⟩ := hps _ List.mem_cons_self
    rw [memberTypes, if_pos hkeeps]
    refine .bind (ihnode hnode (by simpa using hname)) fun t ↦ ?_
    exact .bind (ihrest fun p hp ↦ hps p (List.mem_cons_of_mem _ hp)) fun _ ↦ .done _
  case hidden =>
    intro required name node rest hkeeps ih hps
    rw [memberTypes, if_neg hkeeps]
    exact ih fun p hp ↦ hps p (List.mem_cons_of_mem _ hp)
  case noFactor =>
    intro s required _
    rw [factorTypes]
    exact .done _
  case refFactor =>
    intro s required path cs ih hcs
    have hpath := hH.ref path (hcs _ List.mem_cons_self)
    rw [factorTypes]
    refine .bind (extendedTypes_within heffectless s hpath) fun ts ↦ ?_
    exact .bind (ih fun c hc ↦ hcs c (List.mem_cons_of_mem _ hc)) fun _ ↦ .done _
  case factor =>
    intro s required c cs ihc ihcs hcs
    rw [factorTypes]
    refine .bind (ihc (hcs _ List.mem_cons_self) (by simp)) fun t ↦ ?_
    exact .bind (ihcs fun c hc ↦ hcs c (List.mem_cons_of_mem _ hc)) fun _ ↦ .done _
  case noNode =>
    intro _
    rw [nodeTypes]
    exact .done _
  case node =>
    intro c cs ihc ihcs hcs
    rw [nodeTypes]
    refine .bind (ihc (hcs _ List.mem_cons_self) (by simp)) fun t ↦ ?_
    exact .bind (ihcs fun c hc ↦ hcs c (List.mem_cons_of_mem _ hc)) fun _ ↦ .done _

theorem inherited_mentions {P : String → Prop} :
    Inherited (fun node ↦ ∀ path, node.Mentions path → P path) (fun _ _ ↦ True) P where
  ref path h := h path (.ref path)
  target _ _ path h hd hp := h path (.target hd hp)
  part _ _ h hc path hp := h path (.part hc hp)
  key _ _ _ _ _ _ _ := trivial

/-- The plan of a node meets the references that stand in it, in the mode of the plan. -/
theorem nodeType_within (hA : Admits env A) (node : RefOr Schema) (name : Option String)
    (hM : ∀ path, node.Mentions path → ∀ plain, M path mode plain) :
    Within A M (nodeType env node name mode) :=
  inherited_mentions.nodeType_within (hA.admitsIn _ _) node name hM fun _ _ ↦ trivial

end

end ApiClient
