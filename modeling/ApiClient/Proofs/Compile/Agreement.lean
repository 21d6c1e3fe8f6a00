import ApiClient.Proofs.Compile.Chains
import ApiClient.Proofs.Compile.Histories
import ApiClient.Proofs.Compile.Scanning
import ApiClient.Proofs.Document.Rewriting

/-!
# What compiling reads of a document

Compiling looks into a document only where references lead, and where a type without its
discriminator needs a key that points nowhere. So two documents that agree there give the same
types and the same errors, however different they are elsewhere. It is shown for any set of
references that what the references of the set lead to refers to nothing outside the set.
-/

namespace ApiClient

open TypeScript

/-- The references that stand in a node, at any depth, are all of some kind. -/
def RefOr.Stays (P : String → Prop) (c : RefOr Schema) : Prop :=
  ∀ path, c.Mentions path → P path

theorem RefOr.stays_ref {P : String → Prop} {path : String} : RefOr.Stays P (.ref path) ↔ P path :=
  ⟨fun h ↦ h path (.ref path), fun h _ hother ↦ mentions_ref.1 hother ▸ h⟩

/-- The schemas and references to schemas that stand directly in an object. -/
def Kind.nodes : (kind : Kind) → kind.Object → List (RefOr Schema)
  | schema, s => [.inline s]
  | parameter, p => Parameter.nodes p
  | requestBody, b => RequestBody.nodes b
  | response, r => Response.nodes r

/-- Two documents agree on some references, each for a kind of object: they have the same at their
places, and the references in it are of these as well. They also have the same keys for the types
without discriminators. -/
structure Snapshot.Agrees (snapshot other : Snapshot) (G : Kind → String → Prop) : Prop where
  lookup : ∀ kind path, G kind path → other.lookup path = snapshot.lookup path
  free : ∀ path, G .schema path →
    other.freeReference (path ++ "Base") = snapshot.freeReference (path ++ "Base")
  leads : ∀ kind path a, G kind path → snapshot.resolve kind.read path = .ok a →
    ∀ c ∈ kind.nodes a, c.Stays (G .schema)

/-- The references in what is scanned are all of some kind. -/
def Task.Stays (P : String → Prop) : Task → Prop
  | node c => c.Stays P
  | parts cs _ => ∀ c ∈ cs, c.Stays P

/-- The same choices for another document. -/
def Env.over (env : Env) (snapshot : Snapshot) : Env := { env with snapshot }

@[simp] theorem Env.over_snapshot (env : Env) (snapshot : Snapshot) :
    (env.over snapshot).snapshot = snapshot := rfl

@[simp] theorem Env.over_options (env : Env) (snapshot : Snapshot) :
    (env.over snapshot).options = env.options := rfl

theorem admits_any (env : Env) : AdmitsReferences env fun _ _ ↦ True where
  simple _ _ := trivial
  lift _ := trivial
  resolve _ := trivial
  get := trivial
  allocate _ := trivial
  register _ _ := trivial
  declareType _ _ := trivial
  declareEnum _ _ := trivial
  marks _ := trivial

theorem Build.ext {α : Type} {b b' : Build α} (h : ∀ ctx, b.outcome ctx = b'.outcome ctx) :
    b = b' :=
  funext h

namespace Snapshot.Agrees

variable {env : Env} {other : Snapshot} {G : Kind → String → Prop}
  (h : env.snapshot.Agrees other G) {path : String} {s : Schema} {mode : Mode} {plain : Bool}

include h

theorem resolve {α : Type} {kind : Kind} (hpath : G kind path) (read : Node → Read α) :
    other.resolve read path = env.snapshot.resolve read path := by
  unfold Snapshot.resolve
  rw [h.lookup kind path hpath]

theorem target (hpath : G .schema path) :
    (env.over other).target path plain = env.target path plain := by
  unfold Env.target
  rw [Env.over_snapshot, h.resolve hpath]

theorem aliasKey (hpath : G .schema path) :
    (env.over other).aliasKey path plain = env.aliasKey path plain := by
  cases plain with
  | false => rfl
  | true => exact h.free path hpath

theorem stays_of_target (hpath : G .schema path) (hs : env.target path plain = .ok s) :
    RefOr.Stays (G .schema) (.inline s) := by
  obtain ⟨t, ht, rfl⟩ := Env.target_eq_ok.1 hs
  have hstays := h.leads .schema path t hpath ht (.inline t) (List.mem_singleton.2 rfl)
  cases plain with
  | false => exact hstays
  | true => exact fun next hnext ↦ hstays next (.of_plain hnext)

theorem leads_stays : Leads env (RefOr.Stays (G .schema)) (fun _ _ ↦ True) (G .schema) where
  schema _ _ _ hpath hs := h.stays_of_target hpath hs
  name _ _ _ _ _ := trivial

/-! ## The plans of schemas -/

theorem extendedTypes (child : Schema) (hpath : G .schema path) :
    extendedTypes (env.over other) child path mode = extendedTypes env child path mode := by
  unfold ApiClient.extendedTypes
  rw [Env.over_snapshot, h.resolve hpath]
  rfl

/-- A schema is compiled in the same way if all its references are of the set. -/
theorem nodeType {node : RefOr Schema} (hnode : node.Stays (G .schema)) (name : Option String) :
    nodeType (env.over other) node name mode = nodeType env node name mode := by
  have hH : Inherited (RefOr.Stays (G .schema)) (fun _ _ ↦ True) (G .schema) := inherited_mentions
  revert hnode
  revert node name
  intro node name
  refine (nodeType.mutual_induct env mode
    (fun node name ↦ node.Stays (G .schema) →
      ApiClient.nodeType (env.over other) node name mode = ApiClient.nodeType env node name mode)
    (fun s required name ↦ RefOr.Stays (G .schema) (.inline s) →
      plainType (env.over other) s required name mode = plainType env s required name mode)
    (fun s required ↦ RefOr.Stays (G .schema) (.inline s) →
      objectType (env.over other) s required mode = objectType env s required mode)
    (fun additional ↦ (∀ c, additional = some (.schema c) → c.Stays (G .schema)) →
      additionalType (env.over other) additional mode = additionalType env additional mode)
    (fun properties required ↦ (∀ p ∈ properties, p.2.Stays (G .schema)) →
      memberTypes (env.over other) properties required mode =
        memberTypes env properties required mode)
    (fun s required nodes ↦ (∀ c ∈ nodes, c.Stays (G .schema)) →
      factorTypes (env.over other) s required nodes mode = factorTypes env s required nodes mode)
    (fun nodes ↦ (∀ c ∈ nodes, c.Stays (G .schema)) →
      nodeTypes (env.over other) nodes mode = nodeTypes env nodes mode)
    ?ref ?inline ?tagged ?oneOf ?anyOf ?mapping ?allOf ?prefixItems ?items ?object ?simple ?members
    ?schema ?any ?closed ?absent ?noMember ?member ?hidden ?noFactor ?refFactor ?factor ?noNode
    ?node).1 node name
  case ref =>
    intro name path _
    rw [ApiClient.nodeType, ApiClient.nodeType]
  case inline =>
    intro name s ih hs
    rw [ApiClient.nodeType, ApiClient.nodeType, ih hs]
  case tagged =>
    intro s required name cs hcs d hd _
    rw [plainType_oneOf_tagged _ _ _ hcs hd, plainType_oneOf_tagged _ _ _ hcs hd]
  case oneOf =>
    intro s required name cs hcs hd ih hs
    rw [plainType_oneOf _ _ _ hcs hd, plainType_oneOf _ _ _ hcs hd,
      ih fun c hc ↦ hH.part s c hs (.oneOf hcs hc)]
  case anyOf =>
    intro s required name cs h₁ hcs ih hs
    rw [plainType_anyOf _ _ _ h₁ hcs, plainType_anyOf _ _ _ h₁ hcs,
      ih fun c hc ↦ hH.part s c hs (.anyOf hcs hc)]
  case mapping =>
    intro s required name mapping h₁ h₂ hmapping _
    have hmapping' : (env.over other).mapping? s = some mapping := hmapping
    rw [plainType_mapping _ _ _ h₁ h₂ hmapping, plainType_mapping _ _ _ h₁ h₂ hmapping']
  case allOf =>
    intro s required name cs h₁ h₂ hcs h₃ ih ihobject hs
    have h₃' : (env.over other).mapping? s = none := h₃
    rw [plainType_allOf _ _ _ h₁ h₂ h₃ hcs, plainType_allOf _ _ _ h₁ h₂ h₃' hcs,
      ih fun c hc ↦ hH.part s c hs (.allOf hcs hc), ihobject hs]
  case prefixItems =>
    intro s required name cs h₁ h₂ h₄ hcs h₃ ih hs
    have h₃' : (env.over other).mapping? s = none := h₃
    rw [plainType_prefixItems _ _ _ h₁ h₂ h₃ h₄ hcs, plainType_prefixItems _ _ _ h₁ h₂ h₃' h₄ hcs,
      ih fun c hc ↦ hH.part s c hs (.prefixItem hcs hc)]
  case items =>
    intro s required name c h₁ h₂ h₄ h₅ hc h₃ ih hs
    have h₃' : (env.over other).mapping? s = none := h₃
    rw [plainType_items _ _ _ h₁ h₂ h₃ h₄ h₅ hc, plainType_items _ _ _ h₁ h₂ h₃' h₄ h₅ hc,
      ih (hH.part s c hs (.items hc))]
  case object =>
    intro s required name h₁ h₂ h₄ h₅ h₆ h₃ hshape ih hs
    have h₃' : (env.over other).mapping? s = none := h₃
    rw [plainType_object _ _ _ h₁ h₂ h₃ h₄ h₅ h₆ hshape,
      plainType_object _ _ _ h₁ h₂ h₃' h₄ h₅ h₆ hshape, ih hs]
  case simple =>
    intro s required name h₁ h₂ h₄ h₅ h₆ h₃ hshape _
    have h₃' : (env.over other).mapping? s = none := h₃
    rw [plainType_simple _ _ _ h₁ h₂ h₃ h₄ h₅ h₆ hshape,
      plainType_simple _ _ _ h₁ h₂ h₃' h₄ h₅ h₆ hshape]
    rfl
  case members =>
    intro s required ihmembers ihadditional hs
    rw [objectType, objectType, ihmembers fun p hp ↦ ?_,
      ihadditional fun c hc ↦ hH.part s c hs (.additional hc)]
    obtain ⟨ps, hps, hp⟩ := Schema.mem_getD_nil hp
    exact hH.part s p.2 hs (.property hps hp)
  case schema =>
    intro c ih hc
    rw [additionalType, additionalType, ih (hc c rfl)]
  case any | closed | absent =>
    intro _
    rw [additionalType, additionalType]
  case noMember =>
    intro required _
    rw [memberTypes, memberTypes]
  case member =>
    intro required name node rest hkeeps ihnode ihrest hps
    have hkeeps' : mode.keeps ((env.over other).ownMarks node) := hkeeps
    rw [memberTypes, if_pos hkeeps', memberTypes, if_pos hkeeps,
      ihnode (hps _ List.mem_cons_self), ihrest fun p hp ↦ hps p (List.mem_cons_of_mem _ hp)]
    rfl
  case hidden =>
    intro required name node rest hkeeps ih hps
    have hkeeps' : ¬mode.keeps ((env.over other).ownMarks node) := hkeeps
    rw [memberTypes, if_neg hkeeps', memberTypes, if_neg hkeeps,
      ih fun p hp ↦ hps p (List.mem_cons_of_mem _ hp)]
  case noFactor =>
    intro s required _
    rw [factorTypes, factorTypes]
  case refFactor =>
    intro s required path cs ih hcs
    have hpath := RefOr.stays_ref.1 (hcs _ List.mem_cons_self)
    rw [factorTypes, factorTypes, h.extendedTypes s hpath,
      ih fun c hc ↦ hcs c (List.mem_cons_of_mem _ hc)]
  case factor =>
    intro s required c cs ihc ihcs hcs
    rw [factorTypes, factorTypes, ihc (hcs _ List.mem_cons_self),
      ihcs fun c hc ↦ hcs c (List.mem_cons_of_mem _ hc)]
  case noNode =>
    intro _
    rw [nodeTypes, nodeTypes]
  case node =>
    intro c cs ihc ihcs hcs
    rw [nodeTypes, nodeTypes, ihc (hcs _ List.mem_cons_self),
      ihcs fun c hc ↦ hcs c (List.mem_cons_of_mem _ hc)]

/-! ## Scans -/

theorem scans {task : Task} {walk walk' : Walk} {out : Except CompileError Flags}
    (hscan : Scans env.snapshot task walk out walk') (htask : task.Stays (G .schema)) :
    Scans other task walk out walk' := by
  induction hscan with
  | inline _ ih =>
    exact .inline (ih fun c hc ↦ inherited_mentions.part _ c htask (Schema.part_of_scanned hc))
  | known hknown => exact .known hknown
  | again hnew hmem => exact .again hnew hmem
  | lost hnew hmem hs =>
    exact .lost hnew hmem ((h.resolve (RefOr.stays_ref.1 htask) _).trans hs)
  | found hnew hmem hs _ ih =>
    have hpath := RefOr.stays_ref.1 htask
    exact .found hnew hmem ((h.resolve hpath _).trans hs)
      (ih (h.leads .schema _ _ hpath hs _ (List.mem_singleton.2 rfl)))
  | fail hnew hmem hs _ ih =>
    have hpath := RefOr.stays_ref.1 htask
    exact .fail hnew hmem ((h.resolve hpath _).trans hs)
      (ih (h.leads .schema _ _ hpath hs _ (List.mem_singleton.2 rfl)))
  | nil => exact .nil
  | full hboth => exact .full hboth
  | cons hboth _ _ ihc ihcs =>
    exact .cons hboth (ihc (htask _ List.mem_cons_self))
      (ihcs fun c hc ↦ htask c (List.mem_cons_of_mem _ hc))
  | stop hboth _ ihc => exact .stop hboth (ihc (htask _ List.mem_cons_self))

theorem nodeMarks {node : RefOr Schema} (hnode : node.Stays (G .schema)) :
    (env.over other).nodeMarks node = env.nodeMarks node := by
  cases hmodes : env.options.singleMode with
  | true =>
    have hmodes' : (env.over other).options.singleMode = true := hmodes
    cases node with
    | inline s =>
      rw [Env.nodeMarks, Env.nodeMarks, Env.closureMarks, Env.closureMarks, if_pos hmodes,
        if_pos hmodes']
    | ref path => rw [Env.nodeMarks, Env.nodeMarks, if_pos hmodes, if_pos hmodes']
  | false =>
    have hmodes' : (env.over other).options.singleMode = false := hmodes
    refine Build.ext fun ctx ↦ ?_
    obtain ⟨walk, hwalk, hctx⟩ := (Env.scans_iff hmodes node ctx _ _).1 rfl
    exact (Env.scans_iff hmodes' node ctx _ _).2 ⟨walk, h.scans hwalk hnode, hctx⟩

/-! ## The plans of references -/

theorem declareModes (hs : RefOr.Stays (G .schema) (.inline s)) (key name base : String) :
    declareModes (env.over other) key s name base = declareModes env key s name base := by
  have hmarks : (env.over other).closureMarks s = env.closureMarks s := h.nodeMarks hs
  have htype : ∀ mode, inlineType (env.over other) s none mode = inlineType env s none mode :=
    fun mode ↦ h.nodeType hs none
  have hvariant : ∀ mode,
      addVariant (env.over other) key s name mode = addVariant env key s name mode := by
    intro mode
    simp only [addVariant, declareIn, htype]
  simp only [ApiClient.declareModes, declareIn, htype, hmarks, hvariant]

end Snapshot.Agrees

/-- What one plan does in a document, another one does as well. -/
def Plan.Refines {α : Type} (env : Env) (x y : Plan α) : Prop :=
  ∀ around ctx out ctx' log, Runs env around x ctx out ctx' log → Runs env around y ctx out ctx' log

namespace Plan.Refines

variable {α σ : Type} {env : Env}

theorem refl (x : Plan α) : x.Refines env x := fun _ _ _ _ _ h ↦ h

/-- After a step, plans need to agree only for the results that the step can have. -/
theorem act_bind {b : Build σ} {f f' : σ → Plan α}
    (h : ∀ ctx x ctx', b.outcome ctx = (.ok x, ctx') → (f x).Refines env (f' x)) :
    ((liftM b : Plan σ) >>= f).Refines env ((liftM b : Plan σ) >>= f') := by
  intro around ctx out ctx' log hrun
  cases hrun with
  | act hb hnext => exact .act hb (h _ _ _ hb _ _ _ _ _ hnext)
  | fail hb => exact .fail hb

end Plan.Refines

namespace Snapshot.Agrees

variable {env : Env} {other : Snapshot} {G : Kind → String → Prop}
  (h : env.snapshot.Agrees other G) {path : String}

include h

theorem referencePlan (hpath : G .schema path) (mode : Mode) (plain : Bool) :
    (referencePlan env path mode plain).Refines (env.over other)
      (referencePlan (env.over other) path mode plain) := by
  unfold ApiClient.referencePlan
  rw [h.aliasKey hpath, h.target hpath]
  refine .act_bind fun ctx _ _ _ ↦ ?_
  split
  next => exact .refl _
  next =>
    refine .act_bind fun ctx₁ s ctx₂ hs ↦ ?_
    obtain ⟨htarget, -⟩ := Build.ok_of_outcome_ofResolve hs
    simp only [h.declareModes (h.stays_of_target hpath htarget)]
    exact .refl _

theorem referencePlan_within (hpath : G .schema path) (mode : Mode) (plain : Bool) :
    (ApiClient.referencePlan env path mode plain).Within (fun _ _ ↦ True) fun path _ _ ↦
      G .schema path := by
  exact ((admits_any env).admitsIn _ _).referencePlan_within inherited_mentions h.leads_stays hpath
    mode plain

/-- A run of a plan in one document is one in the other. -/
theorem runs {α : Type} {x : Plan α} {around : Around} {ctx ctx' : Context}
    {out : Except CompileError α} {log : List Meeting} (hrun : Runs env around x ctx out ctx' log)
    {A : (σ : Type) → Build σ → Prop} (hx : x.Within A fun path _ _ ↦ G .schema path)
    (around' : Around) : ∃ log', Runs (env.over other) around' x ctx out ctx' log' := by
  induction hrun generalizing A around' with
  | done a => exact ⟨_, .done a⟩
  | act hb _ ih =>
    obtain ⟨log, hnext⟩ := ih (hx.2 _ _ _ hb) around'
    exact ⟨log, .act hb hnext⟩
  | fail hb => exact ⟨_, .fail hb⟩
  | @meet _ _ path mode plain _ _ _ _ _ _ _ _ _ _ ihpath ihnext =>
    obtain ⟨_, hpath⟩ := ihpath (h.referencePlan_within hx.1 mode plain) fun m ↦
      ((env.over other).aliasKey path plain, m) :: around' mode
    obtain ⟨_, hnext⟩ := ihnext (hx.2 _) around'
    exact ⟨_, .meet (h.referencePlan hx.1 mode plain _ _ _ _ _ hpath) hnext⟩
  | @stuck _ _ path mode plain _ _ _ _ _ _ ihpath =>
    obtain ⟨_, hpath⟩ := ihpath (h.referencePlan_within hx.1 mode plain) fun m ↦
      ((env.over other).aliasKey path plain, m) :: around' mode
    exact ⟨_, .stuck (h.referencePlan hx.1 mode plain _ _ _ _ _ hpath)⟩

/-- Two documents that agree on all references that a schema leads to have the same type for it, or
the same error. -/
theorem schemaType {node : Option (RefOr Schema)} (hnode : ∀ c ∈ node, c.Stays (G .schema))
    (name : Option String) (mode : Mode) :
    (env.over other).schemaType node name mode = env.schemaType node name mode := by
  have hplan : schemaPlan (env.over other) node name mode = schemaPlan env node name mode := by
    cases node with
    | none => rfl
    | some c => exact h.nodeType (hnode c rfl) name
  have hwithin : (schemaPlan env node name mode).Within (fun _ _ ↦ True) fun path _ _ ↦
      G .schema path := by
    cases node with
    | none => exact .done _
    | some c =>
      exact nodeType_within (admits_any env).toAdmits c name fun path hpath _ ↦
        hnode c rfl path hpath
  refine Build.ext fun ctx ↦ ?_
  obtain ⟨log, hrun⟩ := env.ends_schemaPlan node name mode ctx
  obtain ⟨log', hrun'⟩ := h.runs hrun hwithin fun _ ↦ []
  have hends := (env.over other).ends_schemaPlan node name mode ctx
  rw [hplan] at hends
  exact hends.unique ⟨log', hrun'⟩

end Snapshot.Agrees

end ApiClient
