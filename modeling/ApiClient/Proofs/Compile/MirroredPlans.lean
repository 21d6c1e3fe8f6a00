import ApiClient.Proofs.Compile.Mirrors

/-!
# Plans in a mirror

A change of types that goes down to the members of objects turns the plans that compile a document
under some options into those that compile it under other options, as long as these make the same
steps and show the same properties.
-/

namespace ApiClient

open TypeScript
open Mirror (Step Image)

/-- What is asked of a mirror whose second side compiles the same document with other options. -/
structure Mirror.Lawful (M : Mirror) (env : Env) (options : Options) : Prop where
  namedEnums : options.namedEnums = env.options.namedEnums
  singleMode : options.singleMode = env.options.singleMode
  keyword : ∀ k, M.type (.keyword k) = .keyword k
  literal : ∀ l, M.type (.literal l) = .literal l
  named : ∀ name, M.type (.named name) = .named name
  array : ∀ t, M.type (.array t) = .array (M.type t)
  tuple : ∀ ts, M.type (.tuple ts) = .tuple (ts.map M.type)
  union : ∀ ts, M.type (.union ts) = .union (ts.map M.type)
  inter : ∀ ts, M.type (.inter ts) = .inter (ts.map M.type)
  object : ∀ ms index, M.type (.object ms index) = .object (ms.map M.member) (index.map M.type)
  required : ∀ name t, M.member ⟨name, t, false⟩ = ⟨name, M.type t, false⟩
  optional : ∀ name t, M.member ⟨name, env.optionalType t, true⟩ =
    ⟨name, (env.under options).optionalType (M.type t), true⟩
  same : ∀ mode, M.modes mode mode
  keeps : ∀ mode mode' node, M.modes mode mode' →
    mode'.keeps (env.ownMarks node) = mode.keeps (env.ownMarks node)
  names : ∀ ctx mode mode' key names, M.Inv ctx → M.modes mode mode' →
    Table.get? key ctx.aliases = some names → names.get mode' = names.get mode
  enum : ∀ ctx key entry, M.Inv ctx → Table.get? key ctx.enums = some entry →
    M.type entry.type = entry.type
  tables : ∀ ctx ctx' : Context, ctx'.aliases = ctx.aliases → ctx'.enums = ctx.enums →
    ctx'.typeDeclarations = ctx.typeDeclarations → M.Inv ctx → M.Inv ctx'
  register : ∀ ctx key names, M.Inv ctx →
    (env.options.singleMode = true → names.read = none ∧ names.write = none) →
    M.Inv { ctx with aliases := Table.put key names ctx.aliases }
  enterEnum : ∀ ctx key text name, M.Inv ctx →
    M.Inv { ctx with enums := Table.put key ⟨text, .named name⟩ ctx.enums }
  declare : ∀ ctx path plain s mode name t, M.Inv ctx → env.target path plain = .ok s →
    (inlineType env s none mode).MayGive t → M.Inv (ctx.declare name t)

namespace Mirror.Lawful

variable {M : Mirror} {env : Env} {options : Options} (h : M.Lawful env options) {mode mode' : Mode}

include h

theorem any : M.type .any = .any :=
  h.keyword .any

theorem unionOf (ts : List Ty) : M.type (.unionOf ts) = .unionOf (ts.map M.type) := by
  unfold Ty.unionOf
  rcases ts with _ | ⟨t, _ | ⟨u, us⟩⟩
  · exact h.union []
  · rfl
  · exact h.union _

theorem orNull (s : Schema) (t : Ty) : M.type (orNull s t) = ApiClient.orNull s (M.type t) := by
  unfold ApiClient.orNull
  split
  · rw [h.union, List.map_cons, List.map_singleton, h.keyword]
  · rfl

theorem tag (property value : String) : M.type (tag property value) = ApiClient.tag property value
    := by
  rw [ApiClient.tag, h.object, List.map_singleton, h.required, Ty.text, h.literal]
  rfl

theorem typeName (name : TypeName) : M.type name.type = name.type := by
  cases name with
  | array => exact (h.array _).trans (congrArg Ty.array h.any)
  | string | number | integer | boolean | null | object => exact h.keyword _

theorem typeSet (types : TypeSet) : M.type types.type = types.type := by
  rcases types with name | (_ | ⟨name, names⟩)
  · exact h.typeName name
  · exact h.any
  · show M.type (.unionOf _) = .unionOf _
    rw [h.unionOf, List.map_map]
    exact congrArg Ty.unionOf (List.map_congr_left fun name _ ↦ h.typeName name)

theorem literalType (v : Json.Value) : (literalType v).map M.type = ApiClient.literalType v := by
  unfold ApiClient.literalType
  cases literalOf v with
  | error e => rfl
  | ok l => exact congrArg Except.ok (h.literal l)

theorem literalTypes (values : List Json.Value) :
    (values.mapM ApiClient.literalType).map (List.map M.type) =
      values.mapM ApiClient.literalType := by
  induction values with
  | nil => rfl
  | cons v values ih =>
    have hv := h.literalType v
    rw [List.mapM_cons]
    cases hl : ApiClient.literalType v with
    | error e => rfl
    | ok t =>
      rw [hl] at hv
      cases hts : values.mapM ApiClient.literalType with
      | error e => rfl
      | ok ts =>
        rw [hts] at ih
        show Except.ok ((t :: ts).map M.type) = .ok (t :: ts)
        rw [List.map_cons, Except.ok.inj hv, Except.ok.inj ih]

theorem literalUnion (values : List Json.Value) :
    (literalUnion values).map M.type = ApiClient.literalUnion values := by
  have hvalues := h.literalTypes values
  unfold ApiClient.literalUnion
  cases hts : values.mapM ApiClient.literalType with
  | error e => rfl
  | ok ts =>
    rw [hts] at hvalues
    exact congrArg Except.ok ((h.unionOf ts).trans (congrArg Ty.unionOf (Except.ok.inj hvalues)))

theorem ownTag (parent child : Schema) :
    (ownTag parent child).map (Option.map M.type) = ApiClient.ownTag parent child := by
  unfold ApiClient.ownTag
  split
  next d path _ _ =>
    split
    next value _ _ =>
      cases d.requireProperty with
      | error e => rfl
      | ok property => exact congrArg (fun t ↦ Except.ok (some t)) (h.tag property value)
    next => rfl
  next => rfl

/-! ## Steps -/

theorem allocate (wanted : String) :
    M.Step id (Build.allocate wanted) (Build.allocate wanted) :=
  fun ctx hctx ↦ ⟨rfl, h.tables ctx _ rfl rfl rfl hctx⟩

theorem newEnum (s : Schema) (proposed text : String) :
    M.Step M.type (newEnum s proposed text) (ApiClient.newEnum s proposed text) := by
  apply Step.bind (h.allocate proposed)
  intro _ enumName _ _ _
  apply Step.bind (w := id) (.lift (by rw [Except.map_id]; rfl))
  intro _ _ _ _ _
  apply Step.bind (w := id) (.lift (by rw [Except.map_id]; rfl))
  intro _ members _ _ _
  apply Step.bind (w := id)
    (show M.Step id (Build.declareEnum enumName members) _ from
      fun ctx hctx ↦ ⟨rfl, h.tables ctx _ rfl rfl rfl hctx⟩)
  intro _ _ _ _ _ ctx hctx
  exact ⟨Prod.ext (congrArg Except.ok (h.named enumName).symm) rfl, h.enterEnum ctx _ _ _ hctx⟩

theorem declareEnum (s : Schema) (name : String) :
    M.Step M.type (declareEnum s name) (ApiClient.declareEnum s name) := by
  apply Step.bind (w := id) (.lift (by rw [Except.map_id]; rfl))
  intro _ text _ _ _
  apply Step.bind Step.get
  intro ctx _ _ hctx hget
  cases hget
  have hentries : Table.get? (proposedName (s.title.getD (Text.upperFirst name)))
      (ctx.mapTypes M.type).enums =
    Table.get? (proposedName (s.title.getD (Text.upperFirst name))) ctx.enums := rfl
  simp only [hentries, id_eq]
  split
  next entry hentry =>
    split
    · intro ctx' hctx'
      exact ⟨Prod.ext (congrArg Except.ok (h.enum ctx _ entry hctx hentry).symm) rfl, hctx'⟩
    · exact h.newEnum _ _ _
  next => exact h.newEnum _ _ _

theorem declaresEnum (s : Schema) (name : String) :
    (env.under options).options.declaresEnum s name = env.options.declaresEnum s name := by
  show options.declaresEnum s name = _
  rw [Options.declaresEnum, h.namedEnums]
  rfl

/-- A schema without parts has the same values in both compilations. -/
theorem simpleType (s : Schema) (name : Option String) :
    M.Step M.type (simpleType env s name) (ApiClient.simpleType (env.under options) s name) := by
  have hdeclares := h.declaresEnum s
  unfold ApiClient.simpleType
  split
  next values _ =>
    cases name with
    | none => exact .lift (h.literalUnion values).symm
    | some name =>
      dsimp only
      rw [hdeclares]
      split
      · exact h.declareEnum s name
      · exact .lift (h.literalUnion values).symm
  next =>
    split
    · exact .lift (congrArg Except.ok (h.named _).symm)
    · split
      next v _ => exact .lift (h.literalType v).symm
      next =>
        apply Step.lift
        cases s.types with
        | none => exact congrArg Except.ok h.any.symm
        | some types => exact congrArg Except.ok (h.typeSet types).symm

theorem scan (scan : Scan Flags) : M.Step id (Build.scan scan) (Build.scan scan) := by
  intro ctx hctx
  have hkeeps : Build.Keeps (fun ctx ↦ (ctx.aliases, ctx.enums, ctx.typeDeclarations))
      (Build.scan scan) :=
    Build.keeps_scan (fun _ _ ↦ rfl) scan
  have hparts := hkeeps ctx
  simp only [Prod.mk.injEq] at hparts
  refine ⟨?_, h.tables ctx _ hparts.1 hparts.2.1 hparts.2.2 hctx⟩
  have hflags : (ctx.mapTypes M.type).flags = ctx.flags := rfl
  unfold Build.scan
  rw [Build.outcome_bind_ok (Build.outcome_get _), Build.outcome_bind_ok (Build.outcome_get _),
    hflags]
  rcases scan.run { known := ctx.flags } with ⟨_ | flags, walk⟩ <;> rfl

theorem nodeMarks (node : RefOr Schema) :
    M.Step id (env.nodeMarks node) ((env.under options).nodeMarks node) := by
  have hsingle : (env.under options).options.singleMode = env.options.singleMode := h.singleMode
  cases node with
  | inline s =>
    rw [Env.nodeMarks, Env.nodeMarks, Env.closureMarks, Env.closureMarks, hsingle]
    split
    · exact fun ctx hctx ↦ ⟨rfl, hctx⟩
    · exact h.scan _
  | ref path =>
    rw [Env.nodeMarks, Env.nodeMarks, hsingle]
    split
    · exact fun ctx hctx ↦ ⟨rfl, hctx⟩
    · exact h.scan _

theorem ownMarks (node : RefOr Schema) :
    (env.under options).ownMarks node = env.ownMarks node := by
  have hsingle : (env.under options).options.singleMode = env.options.singleMode := h.singleMode
  unfold Env.ownMarks
  rw [hsingle]

/-! ## Plans of schemas -/

variable (hmode : M.modes mode mode')

include hmode

theorem taggedMembers (property : String) (entries : List (String × String)) :
    M.Image (List.map M.type) (taggedMembers property mode entries)
      (ApiClient.taggedMembers property mode' entries) := by
  induction entries with
  | nil => exact .done rfl
  | cons entry rest ih =>
    refine .bind (.follow hmode) fun t ↦ .bind ih fun ts ↦ .done ?_
    rw [List.map_cons, h.inter, List.map_cons, List.map_singleton, h.tag]

theorem taggedUnion (cs : List (RefOr Schema)) (d : Discriminator) :
    M.Image M.type (taggedUnion cs d mode) (ApiClient.taggedUnion cs d mode') := by
  apply Image.act_bind (w := id) (.lift (by rw [Except.map_id]; rfl))
  intro _ property _ _ _
  apply Image.act_bind (w := id) (.lift (by rw [Except.map_id]; rfl))
  intro _ others _ _ _
  exact .bind (h.taggedMembers hmode property _) fun ts ↦ .done (h.unionOf ts).symm

theorem extendedTypes (s : Schema) (path : String) :
    M.Image (List.map M.type) (extendedTypes env s path mode)
      (ApiClient.extendedTypes (env.under options) s path mode') := by
  apply Image.act_bind (Step.ofResolve (env.snapshot.resolve Schema.ofNode path))
  intro _ parent _ _ _
  have hdiscriminating : (env.under options).isDiscriminating parent =
      env.isDiscriminating parent := rfl
  rw [id, hdiscriminating]
  split
  · apply Image.act_bind (.lift (h.ownTag parent s).symm)
    intro _ own _ _ _
    refine .bind (.follow hmode) fun t ↦ .done ?_
    rw [List.map_append, Option.toList_map]
    rfl
  · exact .bind (.follow hmode) fun t ↦ .done rfl

/-- The plan of a node in one mode mirrors that in another one. -/
theorem nodeType (node : RefOr Schema) (name : Option String) :
    M.Image M.type (nodeType env node name mode)
      (ApiClient.nodeType (env.under options) node name mode') := by
  refine (nodeType.mutual_induct env mode
    (fun node name ↦ M.Image M.type (ApiClient.nodeType env node name mode)
      (ApiClient.nodeType (env.under options) node name mode'))
    (fun s required name ↦ M.Image M.type (plainType env s required name mode)
      (plainType (env.under options) s required name mode'))
    (fun s required ↦ M.Image M.type (objectType env s required mode)
      (objectType (env.under options) s required mode'))
    (fun additional ↦ M.Image (Option.map M.type) (additionalType env additional mode)
      (additionalType (env.under options) additional mode'))
    (fun properties required ↦ M.Image (List.map M.member)
      (memberTypes env properties required mode)
      (memberTypes (env.under options) properties required mode'))
    (fun s required nodes ↦ M.Image (List.map M.type) (factorTypes env s required nodes mode)
      (factorTypes (env.under options) s required nodes mode'))
    (fun nodes ↦ M.Image (List.map M.type) (nodeTypes env nodes mode)
      (nodeTypes (env.under options) nodes mode'))
    ?ref ?inline ?tagged ?oneOf ?anyOf ?mapping ?allOf ?prefixItems ?items ?object ?simple ?members
    ?schema ?any ?closed ?absent ?noMember ?member ?hidden ?noFactor ?refFactor ?factor ?noNode
    ?node).1 node name
  case ref =>
    intro name path
    rw [ApiClient.nodeType, ApiClient.nodeType]
    exact .follow hmode
  case inline =>
    intro name s ih
    rw [ApiClient.nodeType, ApiClient.nodeType]
    exact .bind ih fun t ↦ .done (h.orNull s t).symm
  case tagged =>
    intro s required name cs hcs d hd
    rw [plainType_oneOf_tagged _ _ _ hcs hd, plainType_oneOf_tagged _ _ _ hcs hd]
    exact h.taggedUnion hmode cs d
  case oneOf =>
    intro s required name cs hcs hd ih
    rw [plainType_oneOf _ _ _ hcs hd, plainType_oneOf _ _ _ hcs hd]
    exact .bind ih fun ts ↦ .done (h.unionOf ts).symm
  case anyOf =>
    intro s required name cs h₁ hcs ih
    rw [plainType_anyOf _ _ _ h₁ hcs, plainType_anyOf _ _ _ h₁ hcs]
    exact .bind ih fun ts ↦ .done (h.unionOf ts).symm
  case mapping =>
    intro s required name mapping h₁ h₂ hmapping
    have hmapping' : (env.under options).mapping? s = some mapping := hmapping
    rw [plainType_mapping _ _ _ h₁ h₂ hmapping, plainType_mapping _ _ _ h₁ h₂ hmapping']
    exact .bind (.followAll hmode _) fun ts ↦ .done (h.unionOf ts).symm
  case allOf =>
    intro s required name cs h₁ h₂ hcs h₃ ih ihobject
    have h₃' : (env.under options).mapping? s = none := h₃
    rw [plainType_allOf _ _ _ h₁ h₂ h₃ hcs, plainType_allOf _ _ _ h₁ h₂ h₃' hcs]
    refine .bind ih fun ts ↦ ?_
    split
    · refine .bind ihobject fun t ↦ .done ?_
      rw [h.inter, List.map_append, List.map_singleton]
    · exact .done (h.inter ts).symm
  case prefixItems =>
    intro s required name cs h₁ h₂ h₄ hcs h₃ ih
    have h₃' : (env.under options).mapping? s = none := h₃
    rw [plainType_prefixItems _ _ _ h₁ h₂ h₃ h₄ hcs, plainType_prefixItems _ _ _ h₁ h₂ h₃' h₄ hcs]
    exact .bind ih fun ts ↦ .done (h.tuple ts).symm
  case items =>
    intro s required name c h₁ h₂ h₄ h₅ hc h₃ ih
    have h₃' : (env.under options).mapping? s = none := h₃
    rw [plainType_items _ _ _ h₁ h₂ h₃ h₄ h₅ hc, plainType_items _ _ _ h₁ h₂ h₃' h₄ h₅ hc]
    exact .bind ih fun t ↦ .done (h.array t).symm
  case object =>
    intro s required name h₁ h₂ h₄ h₅ h₆ h₃ hshape ih
    have h₃' : (env.under options).mapping? s = none := h₃
    rw [plainType_object _ _ _ h₁ h₂ h₃ h₄ h₅ h₆ hshape,
      plainType_object _ _ _ h₁ h₂ h₃' h₄ h₅ h₆ hshape]
    exact ih
  case simple =>
    intro s required name h₁ h₂ h₄ h₅ h₆ h₃ hshape
    have h₃' : (env.under options).mapping? s = none := h₃
    rw [plainType_simple _ _ _ h₁ h₂ h₃ h₄ h₅ h₆ hshape,
      plainType_simple _ _ _ h₁ h₂ h₃' h₄ h₅ h₆ hshape]
    exact .act (h.simpleType s name) fun _ _ _ _ _ ↦ .done rfl
  case members =>
    intro s required ihmembers ihadditional
    rw [objectType, objectType]
    exact .bind ihmembers fun ms ↦ .bind ihadditional fun index ↦ .done (h.object ms index).symm
  case schema =>
    intro c ih
    rw [additionalType, additionalType]
    exact .bind ih fun t ↦ .done rfl
  case any =>
    rw [additionalType, additionalType]
    exact .done (congrArg some h.any.symm)
  case closed | absent =>
    rw [additionalType, additionalType]
    exact .done rfl
  case noMember =>
    intro required
    rw [memberTypes, memberTypes]
    exact .done rfl
  case member =>
    intro required name node rest hkeeps ihnode ihrest
    have hkeeps' : mode'.keeps ((env.under options).ownMarks node) := by
      rwa [h.ownMarks, h.keeps mode mode' node hmode]
    rw [memberTypes, if_pos hkeeps, memberTypes, if_pos hkeeps']
    refine .bind ihnode fun t ↦ .bind ihrest fun ms ↦ .done ?_
    rw [List.map_cons]
    split
    · rw [h.required]
    · rw [h.optional]
  case hidden =>
    intro required name node rest hkeeps ih
    have hkeeps' : ¬mode'.keeps ((env.under options).ownMarks node) := by
      rwa [h.ownMarks, h.keeps mode mode' node hmode]
    rw [memberTypes, if_neg hkeeps, memberTypes, if_neg hkeeps']
    exact ih
  case noFactor =>
    intro s required
    rw [factorTypes, factorTypes]
    exact .done rfl
  case refFactor =>
    intro s required path cs ih
    rw [factorTypes, factorTypes]
    refine .bind (h.extendedTypes hmode s path) fun ts ↦ .bind ih fun others ↦ .done ?_
    rw [List.map_append]
  case factor =>
    intro s required c cs ihc ihcs
    rw [factorTypes, factorTypes]
    refine .bind ihc fun t ↦ .bind ihcs fun others ↦ .done ?_
    rw [List.map_cons, h.orNull]
  case noNode =>
    rw [nodeTypes, nodeTypes]
    exact .done rfl
  case node =>
    intro c cs ihc ihcs
    rw [nodeTypes, nodeTypes]
    exact .bind ihc fun t ↦ .bind ihcs fun ts ↦ .done rfl

omit hmode

/-! ## Plans of references -/

theorem declareIn {path : String} {plain : Bool} {s : Schema}
    (htarget : env.target path plain = .ok s) (name : String) (mode : Mode) :
    M.Image id (declareIn env s name mode)
      (ApiClient.declareIn (env.under options) s name mode) := by
  apply Image.bind_of_mayGive (h.nodeType (h.same mode) (.inline s) none)
  intro t ht
  refine .act (w := id) (fun ctx hctx ↦ ?_) fun _ _ _ _ _ ↦ .done rfl
  refine ⟨?_, h.declare ctx path plain s mode name t hctx htarget ht⟩
  exact Prod.ext rfl (ctx.mapTypes_declare M.type name t).symm

theorem variantPlan {path : String} {plain : Bool} {s : Schema}
    (htarget : env.target path plain = .ok s) (key name : String) (mode : Mode) {differs : Bool}
    (hdiffers : differs = true → env.options.singleMode = false) :
    M.Image id (variantPlan env key s name mode differs)
      (ApiClient.variantPlan (env.under options) key s name mode differs) := by
  unfold ApiClient.variantPlan
  split
  next hvariant =>
    apply Image.act_bind (h.allocate _)
    intro _ variant _ _ _
    apply Image.act_bind Step.get
    intro ctx _ _ hctx hget
    cases hget
    have haliases : (ctx.mapTypes M.type).aliases = ctx.aliases := rfl
    rw [haliases]
    split
    next names hnames =>
      apply Image.act_bind (w := id) (fun ctx hctx ↦ ⟨rfl, ?_⟩)
      · intro _ _ _ _ _
        exact h.declareIn htarget variant mode
      · apply h.register ctx key _ hctx
        intro hsingle
        rw [hdiffers hvariant] at hsingle
        cases hsingle
    next => exact h.declareIn htarget variant mode
  next => exact .done rfl

theorem declareModes {path : String} {plain : Bool} {s : Schema}
    (htarget : env.target path plain = .ok s) (key name base : String) :
    M.Image id (declareModes env key s name base)
      (ApiClient.declareModes (env.under options) key s name base) := by
  rw [declareModes_eq, declareModes_eq]
  refine .bind (h.declareIn htarget base .base) fun _ ↦ ?_
  apply Image.act_bind (h.nodeMarks (.inline s))
  intro ctx flags ctx' _ hflags
  have hsingle : ∀ mark : Flags → Bool, mark .none = false → mark flags = true →
      env.options.singleMode = false := by
    intro mark hnone hmark
    by_contra hsingle
    rw [Env.nodeMarks, Env.closureMarks, if_pos (by simpa using hsingle)] at hflags
    cases hflags
    rw [hnone] at hmark
    cases hmark
  refine .bind (h.variantPlan htarget key name .read (hsingle Flags.readOnly rfl)) fun _ ↦ ?_
  exact h.variantPlan htarget key name .write (hsingle Flags.writeOnly rfl)

theorem referencePlan (hmode : M.modes mode mode') (path : String) (plain : Bool) :
    M.Image M.type (referencePlan env path mode plain)
      (ApiClient.referencePlan (env.under options) path mode' plain) := by
  have hanswer : ∀ ctx names, M.Inv ctx →
      Table.get? (env.aliasKey path plain) ctx.aliases = some names →
      M.Image M.type (.done (.named (names.get mode))) (.done (.named (names.get mode'))) := by
    intro ctx names hctx hnames
    apply Image.done
    rw [h.names ctx mode mode' _ names hctx hmode hnames, h.named]
  apply Image.act_bind Step.get
  intro ctx _ _ hctx hget
  cases hget
  have haliases : (ctx.mapTypes M.type).aliases = ctx.aliases := rfl
  have hkey : (env.under options).aliasKey path plain = env.aliasKey path plain := rfl
  rw [haliases, hkey]
  split
  next names hnames => exact hanswer ctx names hctx hnames
  next =>
    apply Image.act_bind (Step.ofResolve (env.target path plain))
    intro _ s _ _ hs
    obtain ⟨htarget, -⟩ := Build.ok_of_outcome_ofResolve hs
    simp only [id_eq, h.declaresEnum s]
    split
    · exact .act (h.declareEnum s _) fun _ _ _ _ _ ↦ .done rfl
    · apply Image.act_bind (h.allocate _)
      intro _ base _ _ _
      apply Image.act_bind (w := id)
        (b := Build.register (env.aliasKey path plain) { base := base })
        (fun ctx hctx ↦ ⟨rfl, h.register ctx _ _ hctx fun _ ↦ ⟨rfl, rfl⟩⟩)
      intro _ _ _ _ _
      refine .bind (h.declareModes htarget _ _ base) fun _ ↦ ?_
      apply Image.act_bind Step.get
      intro ctx _ _ hctx hget
      cases hget
      have haliases : (ctx.mapTypes M.type).aliases = ctx.aliases := rfl
      rw [haliases]
      split
      next names hnames => exact hanswer ctx names hctx hnames
      next => exact .done (h.named base).symm

/-! ## Calls -/

theorem ends {x y : Plan Ty} (hxy : M.Image M.type x y) {ctx ctx' : Context} (hctx : M.Inv ctx)
    {out : Except CompileError Ty} (hx : Ends env x ctx out ctx') :
    Ends (env.under options) y (ctx.mapTypes M.type) (out.map M.type) (ctx'.mapTypes M.type) ∧
      M.Inv ctx' := by
  obtain ⟨log, hrun⟩ := hx
  obtain ⟨hinv, hmirrored⟩ := hrun.mirrored
    (fun path mode mode' plain hmode ↦ h.referencePlan hmode path plain) hxy hctx fun _ ↦ []
  exact ⟨hmirrored, hinv⟩

theorem schemaPlan (hmode : M.modes mode mode') (node : Option (RefOr Schema))
    (name : Option String) : M.Image M.type (schemaPlan env node name mode)
      (ApiClient.schemaPlan (env.under options) node name mode') := by
  cases node with
  | none => exact .done h.any.symm
  | some node => exact h.nodeType hmode node name

theorem schemaType (hmode : M.modes mode mode') (node : Option (RefOr Schema))
    (name : Option String) : M.Step M.type (env.schemaType node name mode)
      ((env.under options).schemaType node name mode') := by
  intro ctx hctx
  obtain ⟨hends, hinv⟩ := h.ends (h.schemaPlan hmode node name) hctx
    (env.ends_schemaPlan node name mode ctx)
  exact ⟨((env.under options).ends_schemaPlan node name mode' _).unique hends, hinv⟩

theorem referenceType (hmode : M.modes mode mode') (path : String) (plain : Bool) :
    M.Step M.type (env.referenceType path mode plain)
      ((env.under options).referenceType path mode' plain) := by
  intro ctx hctx
  obtain ⟨hends, hinv⟩ := h.ends (.follow hmode) hctx (env.ends_follow path mode plain ctx)
  exact ⟨((env.under options).ends_follow path mode' plain _).unique hends, hinv⟩

theorem reserve (wanted : String) : M.Step id (Build.reserve wanted) (Build.reserve wanted) :=
  fun ctx hctx ↦ ⟨rfl, h.tables ctx _ rfl rfl rfl hctx⟩

/-- What is known of a fresh context holds in every context on the way. -/
theorem inv_of_reached (hstart : M.Inv {}) {ctx : Context} (hctx : Reached env ctx) :
    M.Inv ctx := by
  induction hctx with
  | start => exact hstart
  | request _ hx hpasses ih =>
    have hplans := fun path mode mode' plain (hmode : M.modes mode mode') ↦
      h.referencePlan hmode path plain
    cases hx with
    | schema node name mode =>
      exact hpasses.inv hplans (h.schemaPlan (h.same mode) node name) ih
    | reference path mode plain => exact hpasses.inv hplans (.follow (h.same mode)) ih
  | marks _ node ih => exact (h.nodeMarks node _ ih).2
  | reserve _ wanted ih => exact (h.reserve wanted _ ih).2

end Mirror.Lawful

end ApiClient
