import ApiClient.Proofs.Compile.Values
import ApiClient.Proofs.Compile.Variants

/-!
# Where types differ from mode to mode

A schema has the same type in two modes unless it comes upon a difference: a reference whose name is
another one in the other mode, or a property that is shown in only one of them. Which places of a
schema count depends on the keyword that decides.
-/

namespace ApiClient

open TypeScript
open Plan (Ensures)

/-- A place in a schema at which its type can differ from mode to mode. -/
inductive Spot where
  /-- A reference, taken without its discriminator if the flag says so. -/
  | ref (path : String) (plain : Bool)
  | inline (s : Schema)
  /-- A property, which is shown or not. -/
  | member (c : RefOr Schema)

def Spot.node : Spot → RefOr Schema
  | ref path _ => .ref path
  | inline s => .inline s
  | member c => c

def RefOr.spot : RefOr Schema → Spot
  | .ref path => .ref path false
  | .inline s => .inline s

/-- The references that a union with a discriminator meets. -/
def Discriminator.targets (d : Discriminator) (variants : List (RefOr Schema)) : List String :=
  match d.requireProperty >>= fun property ↦
    unmapped property ((Table.values d.mapping).map Pointer.baseName) variants with
  | .ok others => Table.values (d.mapping ++ others)
  | .error _ => []

namespace Env

variable (env : Env)

/-- Whether a reference in `allOf` is to a discriminating schema. -/
def extends? (path : String) : Bool :=
  match env.snapshot.resolve Schema.ofNode path with
  | .ok parent => env.isDiscriminating parent
  | .error _ => false

def factorSpot : RefOr Schema → Spot
  | .ref path => .ref path (env.extends? path)
  | .inline s => .inline s

/-- The places of a property: what it is matters only if it is shown in the base mode. -/
def memberSpots (property : String × RefOr Schema) : List Spot :=
  if Mode.base.keeps (env.ownMarks property.2) then [.member property.2, property.2.spot]
  else [.member property.2]

def additionalSpots : Option (Additional Schema) → List Spot
  | some (.schema c) => [c.spot]
  | _ => []

def objectSpots (s : Schema) : List Spot :=
  (s.properties.getD []).flatMap env.memberSpots ++ additionalSpots s.additional

/-- The places of a schema, by the keyword that decides. -/
def spots (s : Schema) : List Spot :=
  match s.oneOf, s.anyOf, env.mapping? s, s.allOf, s.prefixItems, s.items with
  | some cs, _, _, _, _, _ =>
    match s.discriminator with
    | some d => (d.targets cs).map (.ref · false)
    | none => cs.map RefOr.spot
  | none, some cs, _, _, _, _ => cs.map RefOr.spot
  | none, none, some mapping, _, _, _ => (Table.values mapping).map (.ref · false)
  | none, none, none, some cs, _, _ =>
    cs.map env.factorSpot ++ if s.hasObjectShape then env.objectSpots s else []
  | none, none, none, none, some cs, _ => cs.map RefOr.spot
  | none, none, none, none, none, some c => [c.spot]
  | none, none, none, none, none, none => if s.hasObjectShape then env.objectSpots s else []

end Env

/-- What makes a difference between the base mode and another one, going by a table of names. -/
inductive Differs (env : Env) (aliases : Table Aliases) (mode : Mode) : Spot → Prop where
  | ref {path : String} {plain : Bool} {names : Aliases}
      (hnames : Table.get? (env.aliasKey path plain) aliases = some names)
      (h : names.get mode ≠ names.base) : Differs env aliases mode (.ref path plain)
  | member {c : RefOr Schema}
      (h : mode.keeps (env.ownMarks c) ≠ Mode.base.keeps (env.ownMarks c)) :
      Differs env aliases mode (.member c)
  | inline {s : Schema} {spot : Spot} (hspot : spot ∈ env.spots s)
      (h : Differs env aliases mode spot) : Differs env aliases mode (.inline s)

def DiffersAny (env : Env) (aliases : Table Aliases) (mode : Mode) (spots : List Spot) : Prop :=
  ∃ spot ∈ spots, Differs env aliases mode spot

section

variable {env : Env} {aliases : Table Aliases} {mode : Mode} {spot : Spot} {spots more : List Spot}

@[simp] theorem differsAny_nil : ¬DiffersAny env aliases mode [] := by
  simp [DiffersAny]

@[simp] theorem differsAny_cons : DiffersAny env aliases mode (spot :: spots) ↔
    Differs env aliases mode spot ∨ DiffersAny env aliases mode spots := by
  simp [DiffersAny]

@[simp] theorem differsAny_append : DiffersAny env aliases mode (spots ++ more) ↔
    DiffersAny env aliases mode spots ∨ DiffersAny env aliases mode more := by
  simp [DiffersAny, or_and_right, exists_or]

theorem differs_member {c : RefOr Schema} : Differs env aliases mode (.member c) ↔
    mode.keeps (env.ownMarks c) ≠ Mode.base.keeps (env.ownMarks c) := by
  constructor
  · rintro (_ | h | _)
    exact h
  · exact .member

theorem differs_inline {s : Schema} : Differs env aliases mode (.inline s) ↔
    DiffersAny env aliases mode (env.spots s) := by
  constructor
  · rintro (_ | _ | ⟨hspot, h⟩)
    exact ⟨_, hspot, h⟩
  · rintro ⟨spot, hspot, h⟩
    exact .inline hspot h

end

/-- A plan of the base mode with a value is compared with the plan of another mode. The second plan
has the same value unless there is a difference, and in any later context its results are another
one if there is. In any case the results are alike in some way. -/
def Tracks (env : Env) (ctx : Context) {α : Type} (alike : α → α → Prop) (differs : Prop)
    (x y : Plan α) : Prop :=
  ∀ a, x.value env ctx.aliases = some a →
    (¬differs → y.value env ctx.aliases = some a) ∧
    ∀ ctx', ctx.Steady ctx' → y.Ensures env env.naming (fun _ ↦ []) ctx' fun b ctx'' _ ↦
      ctx.Steady ctx'' ∧ alike a b ∧ (differs → a ≠ b)

namespace Tracks

variable {env : Env} {ctx : Context} {α β γ : Type} {A : α → α → Prop} {B : β → β → Prop}
  {C : γ → γ → Prop} {P Q : Prop} {x y : Plan α} {z w : Plan β}

theorem congr (h : Tracks env ctx A P x y) (hPQ : P ↔ Q) : Tracks env ctx A Q x y := by
  rwa [← propext hPQ]

theorem done {a : α} (ha : A a a) : Tracks env ctx A False (.done a) (.done a) := by
  rintro b hb
  cases hb
  exact ⟨fun _ ↦ rfl, fun ctx' hctx' ↦ ⟨hctx', ha, False.elim⟩⟩

theorem act {σ : Type} {b : Build σ} {f g : σ → Plan α} (hb : b.Fixed)
    (h : ∀ v, (b.outcome {}).1 = .ok v → Tracks env ctx A P (f v) (g v)) :
    Tracks env ctx A P (.act b f) (.act b g) := by
  intro a ha
  rw [Plan.value] at ha
  split at ha
  next v hv =>
    obtain ⟨hvalue, hensures⟩ := h v hv a ha
    refine ⟨fun hP ↦ ?_, fun ctx' hctx' u ctx₁ hu ↦ ?_⟩
    · rw [Plan.value, hv]
      exact hvalue hP
    · obtain ⟨hout, rfl⟩ := hb.still hu
      cases hv.symm.trans hout
      exact hensures ctx₁ hctx'
  next => cases ha

/-- Two results that are put together differ if one of them does. -/
theorem both {f : α → β → γ} (hx : Tracks env ctx A P x y) (hz : Tracks env ctx B Q z w)
    (halike : ∀ a a' b b', A a a' → B b b' → C (f a b) (f a' b'))
    (hinj : ∀ a a' b b', A a a' → B b b' → f a b = f a' b' → a = a' ∧ b = b') :
    Tracks env ctx C (P ∨ Q) (x >>= fun a ↦ z >>= fun b ↦ .done (f a b))
      (y >>= fun a ↦ w >>= fun b ↦ .done (f a b)) := by
  intro c hc
  simp only [Plan.value_bind, Option.bind_eq_some_iff, Plan.value_done, Option.some.injEq] at hc
  obtain ⟨a, ha, b, hb, rfl⟩ := hc
  obtain ⟨hvalue₁, hensures₁⟩ := hx a ha
  obtain ⟨hvalue₂, hensures₂⟩ := hz b hb
  refine ⟨fun hPQ ↦ ?_, fun ctx' hctx' ↦ ?_⟩
  · simp [hvalue₁ fun h ↦ hPQ (.inl h), hvalue₂ fun h ↦ hPQ (.inr h)]
  · refine .bind ((hensures₁ ctx' hctx').mono ?_)
    rintro a' ctx₁ - ⟨hctx₁, hA, hP⟩
    refine .bind ((hensures₂ ctx₁ hctx₁).mono ?_)
    rintro b' ctx₂ - ⟨hctx₂, hB, hQ⟩
    refine ⟨hctx₂, halike _ _ _ _ hA hB, fun hPQ heq ↦ ?_⟩
    obtain ⟨rfl, rfl⟩ := hinj _ _ _ _ hA hB heq
    exact hPQ.elim (fun h ↦ hP h rfl) fun h ↦ hQ h rfl

theorem map {f : α → γ} (hx : Tracks env ctx A P x y) (halike : ∀ a a', A a a' → C (f a) (f a'))
    (hinj : ∀ a a', A a a' → f a = f a' → a = a') :
    Tracks env ctx C P (x >>= fun a ↦ .done (f a)) (y >>= fun a ↦ .done (f a)) := by
  have h := both (Q := False) (B := fun _ _ ↦ True) (C := C) (f := fun a (_ : Unit) ↦ f a) hx
    (.done (a := ()) trivial) (fun a a' _ _ hA _ ↦ halike a a' hA) fun a a' _ _ hA _ heq ↦
      ⟨hinj a a' hA heq, rfl⟩
  exact h.congr (Iff.of_eq (or_false P))

/-- A list that gets one more element in the other mode is another one. -/
theorem longer {as bs : Plan (List α)} {u : Plan β} {f : β → α}
    (h : Tracks env ctx (fun as bs ↦ as.length ≤ bs.length) P as bs)
    (hu : ∀ ctx', ctx.Steady ctx' → u.Ensures env env.naming (fun _ ↦ []) ctx' fun _ ctx'' _ ↦
      ctx.Steady ctx'') (hQ : Q) :
    Tracks env ctx (fun as bs ↦ as.length ≤ bs.length) Q as
      (u >>= fun b ↦ bs >>= fun as ↦ .done (f b :: as)) := by
  intro l hl
  refine ⟨fun h ↦ absurd hQ h, fun ctx' hctx' ↦ .bind ((hu ctx' hctx').mono ?_)⟩
  rintro b ctx₁ - hctx₁
  refine .bind (((h l hl).2 ctx₁ hctx₁).mono ?_)
  rintro l' ctx₂ - ⟨hctx₂, hle, -⟩
  refine ⟨hctx₂, Nat.le_succ_of_le hle, fun _ heq ↦ ?_⟩
  have hlen := congrArg List.length heq
  rw [List.length_cons] at hlen
  omega

theorem follow (path : String) (mode : Mode) (plain : Bool) :
    Tracks env ctx (fun _ _ ↦ True) (Differs env ctx.aliases mode (.ref path plain))
      (.follow path .base plain) (.follow path mode plain) := by
  intro a ha
  obtain ⟨names, hnames, ha⟩ := Option.bind_eq_some_iff.1 ha
  cases ha
  refine ⟨fun hsame ↦ ?_, fun ctx' hctx' ↦ ⟨fun _ h ↦ by simp at h, ?_⟩⟩
  · have hget : names.get mode = names.base := Classical.byContradiction fun h ↦
      hsame (.ref hnames h)
    rw [Plan.follow, Plan.value, hnames]
    exact congrArg (fun name ↦ some (Ty.named name)) hget
  · rintro t ctx₁ log ⟨hsteady, hsettled⟩
    refine ⟨hctx'.trans hsteady, trivial, ?_⟩
    rintro (⟨hnames', hne⟩ | _ | _) heq
    cases hnames.symm.trans hnames'
    obtain ⟨names₁, hnames₁, hown⟩ := (hctx'.trans hsteady) _ _ hnames
    have hlogged : (⟨[], env.aliasKey path plain, mode, t⟩ : Meeting) ∈
        log ++ logged ctx₁ [] (env.aliasKey path plain) mode t :=
      List.mem_append_right _ (mem_logged.2 ⟨by rw [Table.has_eq_isSome, hnames₁]; rfl, rfl⟩)
    obtain ⟨-, names₂, hnames₂, hanswer⟩ := hsettled _ hlogged
    cases hnames₁.symm.trans hnames₂
    rw [if_neg (by simp [Meeting.early])] at hanswer
    have ht : t = .named (names.get mode) := by
      rw [← Aliases.get_eq_of_own (hown .base trivial) (hown mode trivial)]
      exact hanswer
    rw [ht, Ty.named.injEq] at heq
    exact hne heq.symm

end Tracks

theorem Mode.keeps_of_base {mode : Mode} {flags : Flags} (h : Mode.base.keeps flags) :
    mode.keeps flags := by
  cases mode <;> simp_all [Mode.keeps]

theorem Ty.unionOf_injective {ts us : List Ty} (hlen : ts.length = us.length)
    (h : Ty.unionOf ts = Ty.unionOf us) : ts = us := by
  match ts, us, hlen with
  | [], [], _ => rfl
  | [t], [u], _ => exact congrArg (fun t ↦ [t]) h
  | t₁ :: t₂ :: ts, u₁ :: u₂ :: us, _ => exact Ty.union.inj h

section

variable {env : Env} {ctx : Context} {mode : Mode}

abbrev SameLength {α : Type} (as bs : List α) : Prop :=
  as.length = bs.length

theorem tracks_followAll (paths : List String) :
    Tracks env ctx SameLength (DiffersAny env ctx.aliases mode (paths.map (.ref · false)))
      (followAll .base paths) (followAll mode paths) := by
  induction paths with
  | nil => exact .congr (.done rfl) (by simp)
  | cons path rest ih =>
    refine ((Tracks.follow path mode false).both ih ?_ ?_).congr (by simp)
    · intro t t' ts ts' _ hlen
      exact congrArg (· + 1) hlen
    · intro t t' ts ts' _ _ heq
      exact List.cons.inj heq

theorem tracks_taggedMembers (property : String) (entries : List (String × String)) :
    Tracks env ctx SameLength
      (DiffersAny env ctx.aliases mode ((Table.values entries).map (.ref · false)))
      (taggedMembers property .base entries) (taggedMembers property mode entries) := by
  induction entries with
  | nil => exact .congr (.done rfl) (by simp [Table.values])
  | cons entry rest ih =>
    refine ((Tracks.follow entry.2 mode false).both ih ?_ ?_).congr (by simp [Table.values])
    · intro t t' ts ts' _ hlen
      exact congrArg (· + 1) hlen
    · intro t t' ts ts' _ _ heq
      simpa using heq

theorem tracks_taggedUnion (cs : List (RefOr Schema)) (d : Discriminator) :
    Tracks env ctx (fun _ _ ↦ True)
      (DiffersAny env ctx.aliases mode ((d.targets cs).map (.ref · false)))
      (taggedUnion cs d .base) (taggedUnion cs d mode) := by
  refine .act (.lift _) fun property hproperty ↦ .act (.lift _) fun others hothers ↦ ?_
  have htargets : d.targets cs = Table.values (d.mapping ++ others) := by
    rw [Build.outcome_lift] at hproperty hothers
    unfold Discriminator.targets
    dsimp only at hproperty hothers
    rw [hproperty]
    simp only [bind, Except.bind, hothers]
  rw [htargets]
  exact (tracks_taggedMembers property _).map (fun _ _ _ ↦ trivial)
    fun _ _ hlen ↦ Ty.unionOf_injective hlen

theorem tracks_extendedTypes (s : Schema) (path : String) :
    Tracks env ctx SameLength (Differs env ctx.aliases mode (.ref path (env.extends? path)))
      (extendedTypes env s path .base) (extendedTypes env s path mode) := by
  refine .act (.ofResolve _) fun parent hparent ↦ ?_
  have hextends : env.extends? path = env.isDiscriminating parent := by
    have hs : env.snapshot.resolve Schema.ofNode path = .ok parent := by
      cases hs : env.snapshot.resolve Schema.ofNode path with
      | error e => rw [hs] at hparent; cases hparent
      | ok s' => rw [hs] at hparent; cases hparent; rfl
    rw [Env.extends?, hs]
  rw [hextends]
  change Tracks env ctx _ _ (if env.isDiscriminating parent then _ else _)
    (if env.isDiscriminating parent then _ else _)
  cases env.isDiscriminating parent with
  | true =>
    refine .act (.lift _) fun own _ ↦ (Tracks.follow path mode true).map ?_ ?_
    · intro t t' _
      show (own.toList ++ [t]).length = (own.toList ++ [t']).length
      rw [List.length_append, List.length_append, List.length_singleton, List.length_singleton]
    · intro t t' _ heq
      simpa using heq
  | false =>
    refine (Tracks.follow path mode false).map ?_ ?_
    · intro t t' _
      rfl
    · intro t t' _ heq
      simpa using heq

/-- The type of a node in a mode is that of the base mode unless there is a difference. -/
theorem tracks_nodeType (henums : env.options.namedEnums = false) (mode : Mode)
    (node : RefOr Schema) (name : Option String) :
    Tracks env ctx (fun _ _ ↦ True) (Differs env ctx.aliases mode node.spot)
      (nodeType env node name .base) (nodeType env node name mode) := by
  revert node name
  refine (nodeType.mutual_induct env .base
    (fun node name ↦ Tracks env ctx (fun _ _ ↦ True) (Differs env ctx.aliases mode node.spot)
      (nodeType env node name .base) (nodeType env node name mode))
    (fun s required name ↦
      Tracks env ctx (fun _ _ ↦ True) (DiffersAny env ctx.aliases mode (env.spots s))
        (plainType env s required name .base) (plainType env s required name mode))
    (fun s required ↦
      Tracks env ctx (fun _ _ ↦ True) (DiffersAny env ctx.aliases mode (env.objectSpots s))
        (objectType env s required .base) (objectType env s required mode))
    (fun additional ↦
      Tracks env ctx (fun _ _ ↦ True)
        (DiffersAny env ctx.aliases mode (Env.additionalSpots additional))
        (additionalType env additional .base) (additionalType env additional mode))
    (fun properties required ↦
      Tracks env ctx (fun as bs ↦ as.length ≤ bs.length)
        (DiffersAny env ctx.aliases mode (properties.flatMap env.memberSpots))
        (memberTypes env properties required .base) (memberTypes env properties required mode))
    (fun s required nodes ↦
      Tracks env ctx (fun _ _ ↦ True) (DiffersAny env ctx.aliases mode (nodes.map env.factorSpot))
        (factorTypes env s required nodes .base) (factorTypes env s required nodes mode))
    (fun nodes ↦
      Tracks env ctx SameLength (DiffersAny env ctx.aliases mode (nodes.map RefOr.spot))
        (nodeTypes env nodes .base) (nodeTypes env nodes mode))
    ?ref ?inline ?tagged ?oneOf ?anyOf ?mapping ?allOf ?prefixItems ?items ?object ?simple ?members
    ?schema ?any ?closed ?absent ?noMember ?member ?hidden ?noFactor ?refFactor ?factor ?noNode
    ?node).1
  case ref =>
    intro name path
    rw [nodeType, nodeType]
    exact .follow path mode false
  case inline =>
    intro name s ih
    rw [nodeType, nodeType]
    refine (ih.map (fun _ _ _ ↦ trivial) fun t t' _ heq ↦ ?_).congr differs_inline.symm
    unfold orNull at heq
    split at heq <;> simpa using heq
  case tagged =>
    intro s required name cs h d hd
    rw [plainType_oneOf_tagged _ _ _ h hd, plainType_oneOf_tagged _ _ _ h hd]
    exact (tracks_taggedUnion cs d).congr (by simp [Env.spots, h, hd])
  case oneOf =>
    intro s required name cs h hd ih
    rw [plainType_oneOf _ _ _ h hd, plainType_oneOf _ _ _ h hd]
    refine (ih.map (fun _ _ _ ↦ trivial) fun _ _ hlen ↦ Ty.unionOf_injective hlen).congr ?_
    simp [Env.spots, h, hd]
  case anyOf =>
    intro s required name cs h₁ h ih
    rw [plainType_anyOf _ _ _ h₁ h, plainType_anyOf _ _ _ h₁ h]
    refine (ih.map (fun _ _ _ ↦ trivial) fun _ _ hlen ↦ Ty.unionOf_injective hlen).congr ?_
    simp [Env.spots, h₁, h]
  case mapping =>
    intro s required name mapping h₁ h₂ h
    rw [plainType_mapping _ _ _ h₁ h₂ h, plainType_mapping _ _ _ h₁ h₂ h]
    refine ((tracks_followAll _).map (fun _ _ _ ↦ trivial)
      fun _ _ hlen ↦ Ty.unionOf_injective hlen).congr ?_
    simp [Env.spots, h₁, h₂, h]
  case allOf =>
    intro s required name cs h₁ h₂ h h₃ ih ihobject
    rw [plainType_allOf _ _ _ h₁ h₂ h₃ h, plainType_allOf _ _ _ h₁ h₂ h₃ h]
    by_cases hshape : s.hasObjectShape
    · simp only [if_pos hshape]
      refine (ih.both ihobject (fun _ _ _ _ _ _ ↦ trivial) ?_).congr ?_
      · intro ts ts' t t' _ _ heq
        simpa using Ty.inter.inj heq
      · simp [Env.spots, h₁, h₂, h₃, h, hshape]
    · simp only [if_neg hshape]
      refine (ih.map (fun _ _ _ ↦ trivial) fun _ _ _ ↦ Ty.inter.inj).congr ?_
      simp [Env.spots, h₁, h₂, h₃, h, hshape]
  case prefixItems =>
    intro s required name cs h₁ h₂ h₄ h h₃ ih
    rw [plainType_prefixItems _ _ _ h₁ h₂ h₃ h₄ h, plainType_prefixItems _ _ _ h₁ h₂ h₃ h₄ h]
    refine (ih.map (fun _ _ _ ↦ trivial) fun _ _ _ ↦ Ty.tuple.inj).congr ?_
    simp [Env.spots, h₁, h₂, h₃, h₄, h]
  case items =>
    intro s required name c h₁ h₂ h₄ h₅ h h₃ ih
    rw [plainType_items _ _ _ h₁ h₂ h₃ h₄ h₅ h, plainType_items _ _ _ h₁ h₂ h₃ h₄ h₅ h]
    refine (ih.map (fun _ _ _ ↦ trivial) fun _ _ _ ↦ Ty.array.inj).congr ?_
    simp [Env.spots, h₁, h₂, h₃, h₄, h₅, h]
  case object =>
    intro s required name h₁ h₂ h₄ h₅ h₆ h₃ h ih
    rw [plainType_object _ _ _ h₁ h₂ h₃ h₄ h₅ h₆ h, plainType_object _ _ _ h₁ h₂ h₃ h₄ h₅ h₆ h]
    exact ih.congr (by simp [Env.spots, h₁, h₂, h₃, h₄, h₅, h₆, h])
  case simple =>
    intro s required name h₁ h₂ h₄ h₅ h₆ h₃ h
    rw [plainType_simple _ _ _ h₁ h₂ h₃ h₄ h₅ h₆ h, plainType_simple _ _ _ h₁ h₂ h₃ h₄ h₅ h₆ h]
    refine .congr (.act (Build.fixed_simpleType henums s name) fun t _ ↦ .done trivial) ?_
    simp [Env.spots, h₁, h₂, h₃, h₄, h₅, h₆, h]
  case members =>
    intro s required ihmembers ihadditional
    rw [objectType, objectType]
    refine (ihmembers.both ihadditional (fun _ _ _ _ _ _ ↦ trivial) ?_).congr ?_
    · intro ms ms' index index' _ _ heq
      exact Ty.object.inj heq
    · simp [Env.objectSpots]
  case schema =>
    intro c ih
    rw [additionalType, additionalType]
    exact (ih.map (fun _ _ _ ↦ trivial) fun _ _ _ ↦ Option.some.inj).congr
      (by simp [Env.additionalSpots])
  case any | closed | absent =>
    rw [additionalType, additionalType]
    exact .congr (.done trivial) (by simp [Env.additionalSpots])
  case noMember =>
    intro required
    rw [memberTypes, memberTypes]
    exact .congr (.done (Nat.le_refl _)) (by simp)
  case member =>
    intro required name node rest hkeeps ihnode ihrest
    rw [memberTypes, if_pos hkeeps, memberTypes, if_pos (Mode.keeps_of_base hkeeps)]
    refine (ihnode.both ihrest ?_ ?_).congr ?_
    · intro t t' others others' _ hle
      exact Nat.succ_le_succ hle
    · intro t t' others others' _ _ heq
      obtain ⟨hmember, rfl⟩ := List.cons.inj heq
      refine ⟨?_, rfl⟩
      split at hmember
      · exact (Member.mk.inj hmember).2.1
      · have htype := (Member.mk.inj hmember).2.1
        unfold Env.optionalType at htype
        split at htype <;> simpa using htype
    · simp [Env.memberSpots, hkeeps, differs_member, Mode.keeps_of_base hkeeps]
  case hidden =>
    intro required name node rest hkeeps ih
    rw [memberTypes, if_neg hkeeps, memberTypes]
    by_cases hmode : mode.keeps (env.ownMarks node)
    · rw [if_pos hmode]
      refine ih.longer (fun ctx' hctx' ↦ ?_) ?_
      · refine (Env.nodeType_ensures_naming node (some name) (fun _ ↦ [])
          fun _ h ↦ by simp at h).mono ?_
        rintro t ctx'' - ⟨hsteady, -⟩
        exact hctx'.trans hsteady
      · simp [Env.memberSpots, hkeeps, differs_member, hmode]
    · rw [if_neg hmode]
      exact ih.congr (by simp [Env.memberSpots, hkeeps, differs_member, hmode])
  case noFactor =>
    intro s required
    rw [factorTypes, factorTypes]
    exact .congr (.done trivial) (by simp)
  case refFactor =>
    intro s required path cs ih
    rw [factorTypes, factorTypes]
    refine ((tracks_extendedTypes s path).both ih (fun _ _ _ _ _ _ ↦ trivial) ?_).congr ?_
    · intro ts ts' others others' hlen _ heq
      exact List.append_inj heq hlen
    · simp [Env.factorSpot]
  case factor =>
    intro s required c cs ihc ihcs
    rw [factorTypes, factorTypes]
    refine (ihc.both ihcs (fun _ _ _ _ _ _ ↦ trivial) ?_).congr ?_
    · intro t t' others others' _ _ heq
      obtain ⟨hnull, rfl⟩ := List.cons.inj heq
      unfold orNull at hnull
      split at hnull <;> simpa using hnull
    · simp [Env.factorSpot, differs_inline]
  case noNode =>
    rw [nodeTypes, nodeTypes]
    exact .congr (.done rfl) (by simp)
  case node =>
    intro c cs ihc ihcs
    rw [nodeTypes, nodeTypes]
    refine (ihc.both ihcs ?_ ?_).congr (by simp)
    · intro t t' ts ts' _ hlen
      exact congrArg (· + 1) hlen
    · intro t t' ts ts' _ _ heq
      exact List.cons.inj heq

end

end ApiClient
