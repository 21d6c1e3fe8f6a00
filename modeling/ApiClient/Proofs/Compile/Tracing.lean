import ApiClient.Proofs.Compile.Origins
import ApiClient.Proofs.Compile.Results

/-!
# What a schema puts in its type

Whatever the steps of a plan come to and its references are answered, the words of the type that it
makes are those of the sites of its schema, in their order. So nothing gets into a type but what is
shown in its mode.
-/

namespace ApiClient

open TypeScript

variable {env : Env} {ctx : Context} {mode : Mode}

/-- The words of what a plan comes to are traced to sites in a schema. -/
def Yields (env : Env) (ctx : Context) (mode : Mode) {α : Type} (words : α → List Word)
    (sites : List Site) (x : Plan α) : Prop :=
  x.Always (fun _ b y ↦ ctx.Came b y) (ctx.Answers env) fun a ↦ Traces env ctx mode sites (words a)

namespace Yields

variable {α β γ σ : Type} {x : Plan α} {y : Plan β} {wordsA : α → List Word}
  {wordsB : β → List Word} {wordsC : γ → List Word} {sites more : List Site}

theorem congr (h : Yields env ctx mode wordsA sites x) (heq : sites = more) :
    Yields env ctx mode wordsA more x :=
  heq ▸ h

theorem done {a : α} (h : Traces env ctx mode sites (wordsA a)) :
    Yields env ctx mode wordsA sites (.done a) := h

theorem mono {words : α → List Word} (h : Yields env ctx mode words sites x)
    (himp : ∀ a, Traces env ctx mode sites (words a) → Traces env ctx mode more (wordsA a)) :
    Yields env ctx mode wordsA more x :=
  Plan.Always.mono h himp

theorem act {b : Build σ} {f : σ → Plan α}
    (h : ∀ v, ctx.Came b v → Yields env ctx mode wordsA sites (f v)) :
    Yields env ctx mode wordsA sites ((liftM b : Plan σ) >>= f) :=
  .act_bind h

theorem lift {v : Except CompileError σ} {f : σ → Plan α}
    (h : ∀ a, v = .ok a → Yields env ctx mode wordsA sites (f a)) :
    Yields env ctx mode wordsA sites ((liftM v : Plan σ) >>= f) :=
  fun a ha ↦ h a ha.lift

theorem both {f : α → β → γ} (hx : Yields env ctx mode wordsA sites x)
    (hy : Yields env ctx mode wordsB more y)
    (hf : ∀ a b, wordsC (f a b) = wordsA a ++ wordsB b) :
    Yields env ctx mode wordsC (sites ++ more) (x >>= fun a ↦ y >>= fun b ↦ .done (f a b)) := by
  refine Plan.Always.bind (Plan.Always.mono hx fun a ha ↦ ?_)
  refine Plan.Always.bind (Plan.Always.mono hy fun b hb ↦ ?_)
  exact .done (hf a b ▸ ha.append hb)

theorem map {f : α → γ} (hx : Yields env ctx mode wordsA sites x)
    (hf : ∀ a, wordsC (f a) = wordsA a) :
    Yields env ctx mode wordsC sites (x >>= fun a ↦ .done (f a)) :=
  Plan.Always.bind (Plan.Always.mono hx fun a ha ↦ .done (hf a ▸ ha))

theorem follow (path : String) (plain : Bool) :
    Yields env ctx mode Ty.words [.ref path plain] (.follow path mode plain) :=
  Plan.Always.follow fun _ ↦ .ref

end Yields

theorem yields_followAll (paths : List String) :
    Yields env ctx mode wordsOfTypes (paths.map (.ref · false)) (followAll mode paths) := by
  induction paths with
  | nil => exact .done (wordsOfTypes_nil ▸ .nil)
  | cons path rest ih => exact (Yields.follow path false).both ih wordsOfTypes_cons

theorem yields_taggedMembers (property : String) (entries : List (String × String)) :
    Yields env ctx mode wordsOfTypes
      ((Table.values entries).flatMap fun path ↦ [.tag property, .ref path false])
      (taggedMembers property mode entries) := by
  induction entries with
  | nil => exact .done (wordsOfTypes_nil ▸ .nil)
  | cons entry rest ih =>
    have hmember : Yields env ctx mode (fun t ↦ .member property :: t.words)
        [.tag property, .ref entry.2 false] (.follow entry.2 mode) :=
      (Yields.follow entry.2 false).mono fun t ht ↦ (Traces.tag property).append ht
    exact hmember.both ih fun t ts ↦ by simp

theorem Discriminator.site_eq {d : Discriminator} {property : String}
    (h : d.requireProperty = .ok property) : d.site = .tag property := by
  unfold requireProperty at h
  cases hd : d.property with
  | none => simp [hd] at h
  | some p => simp_all [site]

theorem yields_taggedUnion (cs : List (RefOr Schema)) (d : Discriminator) :
    Yields env ctx mode Ty.words ((d.targets cs).flatMap fun path ↦ [d.site, .ref path false])
      (taggedUnion cs d mode) := by
  refine .lift fun property hproperty ↦ .lift fun others hothers ↦ ?_
  have htargets : d.targets cs = Table.values (d.mapping ++ others) := by
    unfold Discriminator.targets
    rw [hproperty]
    simp only [bind, Except.bind, hothers]
  rw [htargets, d.site_eq hproperty]
  exact (yields_taggedMembers property _).map Ty.words_unionOf

theorem words_of_ownTag {parent child : Schema} {own : Option Ty}
    (h : ownTag parent child = .ok own) :
    Traces env ctx mode (parent.tagSites child) (wordsOfTypes own.toList) := by
  rw [ownTag.eq_def] at h
  rw [Schema.tagSites.eq_def]
  cases hd : parent.discriminator with
  | none =>
    simp only [hd] at h ⊢
    cases h
    simpa using Traces.nil
  | some d =>
    cases hpath : child.component with
    | none =>
      simp only [hd, hpath] at h ⊢
      cases h
      simpa using Traces.nil
    | some path =>
      have hany : d.mapping.any (fun entry ↦ entry.2 == path) =
          (d.mapping.find? fun entry ↦ entry.2 == path).isSome := by
        rw [Bool.eq_iff_iff, List.any_eq_true, List.find?_isSome]
      simp only [hd, hpath, hany] at h ⊢
      cases hfind : d.mapping.find? fun entry ↦ entry.2 == path with
      | none =>
        rw [hfind] at h
        cases h
        simpa using Traces.nil
      | some found =>
        rw [hfind] at h
        obtain ⟨property, hproperty, h⟩ := bind_eq_ok.1 h
        cases h
        simpa [d.site_eq hproperty] using Traces.tag property

theorem yields_extendedTypes (s : Schema) (path : String) :
    Yields env ctx mode wordsOfTypes (env.extensionSites s path)
      (extendedTypes env s path mode) := by
  refine .act fun parent hparent ↦ ?_
  simp only [Env.extensionSites, hparent.ofResolve]
  split
  next =>
    refine .lift fun own hown ↦ Plan.Always.bind (Plan.Always.mono (Yields.follow path true) ?_)
    intro t ht
    refine .done ?_
    rw [wordsOfTypes_append, wordsOfTypes_cons, wordsOfTypes_nil, List.append_nil]
    exact (words_of_ownTag hown).append ht
  next => exact (Yields.follow path false).map fun t ↦ by simp

/-- The words of the type of a node come from the site of the node, in the mode in which it is
compiled. -/
theorem yields_nodeType (node : RefOr Schema) (name : Option String) :
    Yields env ctx mode Ty.words [node.site] (nodeType env node name mode) := by
  revert node name
  refine (nodeType.mutual_induct env mode
    (fun node name ↦ Yields env ctx mode Ty.words [node.site] (nodeType env node name mode))
    (fun s required name ↦
      Yields env ctx mode Ty.words (env.sites mode s) (plainType env s required name mode))
    (fun s required ↦
      Yields env ctx mode Ty.words (env.objectSites mode s) (objectType env s required mode))
    (fun additional ↦
      Yields env ctx mode wordsOfIndex (indexSites additional) (additionalType env additional mode))
    (fun properties required ↦
      Yields env ctx mode wordsOfMembers (properties.flatMap (env.propertySites mode))
        (memberTypes env properties required mode))
    (fun s required nodes ↦
      Yields env ctx mode wordsOfTypes (nodes.flatMap (env.factorSites s))
        (factorTypes env s required nodes mode))
    (fun nodes ↦
      Yields env ctx mode wordsOfTypes (nodes.map RefOr.site) (nodeTypes env nodes mode))
    ?ref ?inline ?tagged ?oneOf ?anyOf ?mapping ?allOf ?prefixItems ?items ?object ?simple ?members
    ?schema ?any ?closed ?absent ?noMember ?member ?hidden ?noFactor ?refFactor ?factor ?noNode
    ?node).1
  case ref =>
    intro name path
    rw [nodeType]
    exact .follow path false
  case inline =>
    intro name s ih
    rw [nodeType]
    exact (ih.map (words_orNull s)).mono fun _ ↦ .inline
  case tagged =>
    intro s required name cs h d hd
    rw [plainType_oneOf_tagged _ _ _ h hd]
    exact (yields_taggedUnion cs d).congr (by simp [Env.sites, h, hd])
  case oneOf =>
    intro s required name cs h hd ih
    rw [plainType_oneOf _ _ _ h hd]
    exact (ih.map Ty.words_unionOf).congr (by simp [Env.sites, h, hd])
  case anyOf =>
    intro s required name cs h₁ h ih
    rw [plainType_anyOf _ _ _ h₁ h]
    exact (ih.map Ty.words_unionOf).congr (by simp [Env.sites, h₁, h])
  case mapping =>
    intro s required name mapping h₁ h₂ h
    rw [plainType_mapping _ _ _ h₁ h₂ h]
    exact ((yields_followAll _).map Ty.words_unionOf).congr (by simp [Env.sites, h₁, h₂, h])
  case allOf =>
    intro s required name cs h₁ h₂ h h₃ ih ihobject
    rw [plainType_allOf _ _ _ h₁ h₂ h₃ h]
    by_cases hshape : s.hasObjectShape
    · simp only [if_pos hshape]
      refine (ih.both ihobject fun ts t ↦ ?_).congr (by simp [Env.sites, h₁, h₂, h₃, h, hshape])
      simp
    · simp only [if_neg hshape]
      exact (ih.map Ty.words_inter).congr (by simp [Env.sites, h₁, h₂, h₃, h, hshape])
  case prefixItems =>
    intro s required name cs h₁ h₂ h₄ h h₃ ih
    rw [plainType_prefixItems _ _ _ h₁ h₂ h₃ h₄ h]
    exact (ih.map Ty.words_tuple).congr (by simp [Env.sites, h₁, h₂, h₃, h₄, h])
  case items =>
    intro s required name c h₁ h₂ h₄ h₅ h h₃ ih
    rw [plainType_items _ _ _ h₁ h₂ h₃ h₄ h₅ h]
    exact (ih.map Ty.words_array).congr (by simp [Env.sites, h₁, h₂, h₃, h₄, h₅, h])
  case object =>
    intro s required name h₁ h₂ h₄ h₅ h₆ h₃ h ih
    rw [plainType_object _ _ _ h₁ h₂ h₃ h₄ h₅ h₆ h]
    exact ih.congr (by simp [Env.sites, h₁, h₂, h₃, h₄, h₅, h₆, h])
  case simple =>
    intro s required name h₁ h₂ h₄ h₅ h₆ h₃ h
    rw [plainType_simple _ _ _ h₁ h₂ h₃ h₄ h₅ h₆ h]
    refine Yields.congr (fun t ht ↦ Traces.values ht) ?_
    simp [Env.sites, h₁, h₂, h₃, h₄, h₅, h₆, h]
  case members =>
    intro s required ihmembers ihadditional
    rw [objectType]
    exact ihmembers.both ihadditional Ty.words_object
  case schema =>
    intro c ih
    rw [additionalType]
    exact ih.map wordsOfIndex_some
  case any =>
    rw [additionalType]
    exact .done (by simpa [Ty.any, indexSites] using Traces.nil)
  case closed | absent =>
    rw [additionalType]
    exact .done (wordsOfIndex_none ▸ Traces.nil)
  case noMember =>
    intro required
    rw [memberTypes]
    exact .done (wordsOfMembers_nil ▸ Traces.nil)
  case member =>
    intro required name node rest hkeeps ihnode ihrest
    rw [memberTypes, if_pos hkeeps, List.flatMap_cons, Env.propertySites, if_pos hkeeps]
    have hmember : Yields env ctx mode (fun t ↦ .member name :: t.words)
        [.property name node, node.site] (nodeType env node (some name) mode) :=
      ihnode.mono fun t ht ↦ (Traces.property name node).append ht
    refine hmember.both ihrest fun t others ↦ ?_
    split <;> simp
  case hidden =>
    intro required name node rest hkeeps ih
    rw [memberTypes, if_neg hkeeps, List.flatMap_cons, Env.propertySites, if_neg hkeeps]
    exact ih
  case noFactor =>
    intro s required
    rw [factorTypes]
    exact .done (wordsOfTypes_nil ▸ Traces.nil)
  case refFactor =>
    intro s required path cs ih
    rw [factorTypes]
    exact (yields_extendedTypes s path).both ih wordsOfTypes_append
  case factor =>
    intro s required c cs ihc ihcs
    rw [factorTypes]
    have hfactor : Yields env ctx mode Ty.words (env.factorSites s (.inline c))
        (plainType env c (c.required <|> required) none mode) := ihc.mono fun _ ↦ .inline
    exact hfactor.both ihcs fun t others ↦ by simp
  case noNode =>
    rw [nodeTypes]
    exact .done (wordsOfTypes_nil ▸ Traces.nil)
  case node =>
    intro c cs ihc ihcs
    rw [nodeTypes]
    exact ihc.both ihcs wordsOfTypes_cons

end ApiClient
