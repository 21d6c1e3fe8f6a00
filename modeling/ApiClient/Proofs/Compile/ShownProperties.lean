import ApiClient.Proofs.Compile.Differences
import ApiClient.Proofs.Compile.Mirrors

/-!
# The properties that a type shows

The type of a schema contains an object for each schema with the shape of an object that is compiled
within it. Where each schema has one type for all modes, no property is left out of these objects.
-/

namespace ApiClient.TypeScript

/-- A type stands in another one. -/
inductive Ty.Contains : Ty → Ty → Prop where
  | self (t : Ty) : Contains t t
  | array {t u : Ty} (h : Contains t u) : Contains (.array t) u
  | tuple {ts : List Ty} {t u : Ty} (ht : t ∈ ts) (h : Contains t u) : Contains (.tuple ts) u
  | union {ts : List Ty} {t u : Ty} (ht : t ∈ ts) (h : Contains t u) : Contains (.union ts) u
  | inter {ts : List Ty} {t u : Ty} (ht : t ∈ ts) (h : Contains t u) : Contains (.inter ts) u
  | member {ms : List (Member Ty)} {index : Option Ty} {m : Member Ty} {u : Ty} (hm : m ∈ ms)
      (h : Contains m.type u) : Contains (.object ms index) u
  | index {ms : List (Member Ty)} {t u : Ty} (h : Contains t u) : Contains (.object ms (some t)) u

theorem Ty.Contains.unionOf {ts : List Ty} {t u : Ty} (ht : t ∈ ts) (h : Contains t u) :
    Contains (.unionOf ts) u := by
  unfold Ty.unionOf
  split
  next t' =>
    obtain rfl := List.mem_singleton.1 ht
    exact h
  next => exact .union ht h

/-- What stands in the type of a member or in the index stands in the object. -/
theorem Ty.Contains.object {ms : List (Member Ty)} {index : Option Ty} {t u : Ty}
    (ht : t ∈ ms.map Member.type ++ index.toList) (h : Contains t u) :
    Contains (.object ms index) u := by
  rcases List.mem_append.1 ht with ht | ht
  · obtain ⟨m, hm, rfl⟩ := List.mem_map.1 ht
    exact .member hm h
  · cases Option.mem_toList.1 ht
    exact .index h

end ApiClient.TypeScript

namespace ApiClient

open TypeScript

theorem TypeScript.Ty.Contains.optionalType {t u : Ty} (h : t.Contains u) (env : Env) :
    (env.optionalType t).Contains u := by
  unfold Env.optionalType
  split
  · exact .union List.mem_cons_self h
  · exact h

namespace Env

variable (env : Env)

/-- Compiling a schema makes an object of its properties. -/
structure MakesObject (s : Schema) : Prop where
  oneOf : s.oneOf = none
  anyOf : s.anyOf = none
  mapping : env.mapping? s = none
  items : s.allOf = none → s.prefixItems = none ∧ s.items = none
  shape : s.hasObjectShape = true

/-- Compiling the first schema compiles the second one, which stands in it. -/
inductive Holds : Schema → Schema → Prop where
  | self (s : Schema) : Holds s s
  | inline {s t u : Schema} (ht : .inline t ∈ env.spots s) (h : Holds t u) : Holds s u

/-- A type shows all properties of a schema: one of its objects has exactly these members. -/
def ShowsOwn (s : Schema) (t : Ty) : Prop :=
  env.MakesObject s → ∃ ms index, t.Contains (.object ms index) ∧
    ms.map Member.name = (s.properties.getD []).map Prod.fst

/-- A type shows all properties of every schema that is compiled within one. -/
def Shows (s : Schema) (t : Ty) : Prop :=
  ∀ u, env.Holds s u → env.ShowsOwn u t

/-- What stands at some places is shown by types of a list. -/
def ShowsSpots (spots : List Spot) (ts : List Ty) : Prop :=
  ∀ s, .inline s ∈ spots → ∃ t ∈ ts, env.Shows s t

/-- The members of an object are all properties of a schema and show what stands in them. -/
structure ShowsMembers (properties : List (String × RefOr Schema)) (ms : List (Member Ty)) :
    Prop where
  names : ms.map Member.name = properties.map Prod.fst
  spots : env.ShowsSpots (properties.flatMap env.memberSpots) (ms.map Member.type)

theorem keeps_of_singleMode {env : Env} (hsingle : env.options.singleMode = true) (mode : Mode)
    (node : RefOr Schema) : mode.keeps (env.ownMarks node) = true := by
  unfold ownMarks
  rw [if_pos hsingle]
  cases mode <;> rfl

end Env

section

variable {env : Env} {s : Schema} {t u : Ty} {spots more : List Spot} {ts us : List Ty}

theorem Env.Shows.mono (h : env.Shows s t) (hcontains : ∀ v, t.Contains v → u.Contains v) :
    env.Shows s u := by
  intro r hr hobject
  obtain ⟨ms, index, hms, hnames⟩ := h r hr hobject
  exact ⟨ms, index, hcontains _ hms, hnames⟩

/-- A type shows what is compiled within a schema if it shows the schema itself and what stands at
its places. -/
theorem Env.Shows.of_spots (ts : List Ty) (hown : env.ShowsOwn s t)
    (h : env.ShowsSpots (env.spots s) ts)
    (hcontains : ∀ u ∈ ts, ∀ v, u.Contains v → t.Contains v) : env.Shows s t := by
  rintro r (_ | ⟨hspot, hr⟩)
  · exact hown
  · obtain ⟨u, hu, hshows⟩ := h _ hspot
    exact (hshows.mono (hcontains u hu)) r hr

theorem Env.Shows.orNull (h : env.Shows s t) : env.Shows s (orNull s t) := by
  unfold ApiClient.orNull
  split
  · exact h.mono fun v hv ↦ .union List.mem_cons_self hv
  · exact h

namespace Env.ShowsSpots

theorem nil : env.ShowsSpots [] ts :=
  fun _ h ↦ absurd h List.not_mem_nil

theorem append (h : env.ShowsSpots spots ts) (h' : env.ShowsSpots more us) :
    env.ShowsSpots (spots ++ more) (ts ++ us) := by
  intro s hs
  rcases List.mem_append.1 hs with hs | hs
  · obtain ⟨t, ht, hshows⟩ := h s hs
    exact ⟨t, List.mem_append_left _ ht, hshows⟩
  · obtain ⟨t, ht, hshows⟩ := h' s hs
    exact ⟨t, List.mem_append_right _ ht, hshows⟩

theorem cons {spot : Spot} (h : env.ShowsSpots [spot] [t]) (hs : env.ShowsSpots spots ts) :
    env.ShowsSpots (spot :: spots) (t :: ts) := h.append hs

/-- References show nothing by themselves. -/
theorem of_refs (h : ∀ spot ∈ spots, ∃ path plain, spot = .ref path plain) :
    env.ShowsSpots spots ts := by
  intro s hs
  obtain ⟨_, _, hspot⟩ := h _ hs
  cases hspot

theorem spot {node : RefOr Schema} (h : ∀ s, node = .inline s → env.Shows s t) :
    env.ShowsSpots [node.spot] [t] := by
  intro s hs
  cases node with
  | ref path => cases List.mem_singleton.1 hs
  | inline c =>
    cases List.mem_singleton.1 hs
    exact ⟨t, List.mem_singleton_self t, h s rfl⟩

end Env.ShowsSpots

theorem Env.ShowsMembers.cons {node : RefOr Schema} {rest : List (String × RefOr Schema)}
    {m : Member Ty} {ms : List (Member Ty)} (hkept : Mode.base.keeps (env.ownMarks node) = true)
    (hnode : ∀ s, node = .inline s → env.Shows s m.type) (hrest : env.ShowsMembers rest ms) :
    env.ShowsMembers ((m.name, node) :: rest) (m :: ms) := by
  have hspots : env.ShowsSpots (env.memberSpots (m.name, node)) [m.type] := by
    rw [Env.memberSpots, if_pos hkept]
    intro s hs
    rcases List.mem_cons.1 hs with hs | hs
    · cases hs
    · exact Env.ShowsSpots.spot hnode s hs
  exact ⟨congrArg (m.name :: ·) hrest.names, hspots.append hrest.spots⟩

/-- Whatever is answered, the type of a schema shows all properties of what is compiled within
it. -/
theorem nodeType_shows (hsingle : env.options.singleMode = true) (mode : Mode)
    (node : RefOr Schema) (name : Option String) :
    (nodeType env node name mode).Surely fun t ↦ ∀ s, node = .inline s → env.Shows s t := by
  refine (nodeType.mutual_induct env mode
    (fun node name ↦ (nodeType env node name mode).Surely fun t ↦
      ∀ s, node = .inline s → env.Shows s t)
    (fun s required name ↦ (plainType env s required name mode).Surely (env.Shows s))
    (fun s required ↦ (objectType env s required mode).Surely fun t ↦
      ∃ ms index, t = .object ms index ∧ ms.map Member.name = (s.properties.getD []).map Prod.fst ∧
        env.ShowsSpots (env.objectSpots s) (ms.map Member.type ++ index.toList))
    (fun additional ↦ (additionalType env additional mode).Surely fun index ↦
      env.ShowsSpots (Env.additionalSpots additional) index.toList)
    (fun properties required ↦
      (memberTypes env properties required mode).Surely (env.ShowsMembers properties))
    (fun s required nodes ↦ (factorTypes env s required nodes mode).Surely
      (env.ShowsSpots (nodes.map env.factorSpot)))
    (fun nodes ↦ (nodeTypes env nodes mode).Surely (env.ShowsSpots (nodes.map RefOr.spot)))
    ?ref ?inline ?tagged ?oneOf ?anyOf ?mapping ?allOf ?prefixItems ?items ?object ?simple ?members
    ?schema ?any ?closed ?absent ?noMember ?member ?hidden ?noFactor ?refFactor ?factor ?noNode
    ?node).1 node name
  case ref =>
    intro name path
    exact .of_forall fun t s hs ↦ by cases hs
  case inline =>
    intro name s ih
    rw [nodeType]
    refine .bind (ih.mono fun t ht ↦ ?_)
    rintro _ ⟨⟩
    exact ht.orNull
  case tagged =>
    intro s required name cs h d hd
    refine .of_forall fun t ↦ .of_spots [] ?_ (.of_refs ?_) (List.forall_mem_nil _)
    · exact fun hobject ↦ by cases h.symm.trans hobject.oneOf
    · simp [Env.spots, h, hd]
  case oneOf =>
    intro s required name cs h hd ih
    rw [plainType_oneOf _ _ _ h hd]
    refine .bind (ih.mono fun ts hts ↦ .of_spots ts ?_ ?_ ?_)
    · exact fun hobject ↦ by cases h.symm.trans hobject.oneOf
    · simpa [Env.spots, h, hd] using hts
    · exact fun u hu v hv ↦ .unionOf hu hv
  case anyOf =>
    intro s required name cs h₁ h ih
    rw [plainType_anyOf _ _ _ h₁ h]
    refine .bind (ih.mono fun ts hts ↦ .of_spots ts ?_ ?_ ?_)
    · exact fun hobject ↦ by cases h.symm.trans hobject.anyOf
    · simpa [Env.spots, h₁, h] using hts
    · exact fun u hu v hv ↦ .unionOf hu hv
  case mapping =>
    intro s required name mapping h₁ h₂ h
    refine .of_forall fun t ↦ .of_spots [] ?_ (.of_refs ?_) (List.forall_mem_nil _)
    · exact fun hobject ↦ by cases h.symm.trans hobject.mapping
    · simp [Env.spots, h₁, h₂, h]
  case allOf =>
    intro s required name cs h₁ h₂ h h₃ ih ihobject
    rw [plainType_allOf _ _ _ h₁ h₂ h₃ h]
    refine .bind (ih.mono fun ts hts ↦ ?_)
    by_cases hshape : s.hasObjectShape
    · rw [if_pos hshape]
      refine .bind (ihobject.mono ?_)
      rintro _ ⟨ms, index, rfl, hnames, hspots⟩
      apply Env.Shows.of_spots (ts ++ (ms.map Member.type ++ index.toList))
      · intro _
        exact ⟨ms, index, .inter (List.mem_append_right _ List.mem_cons_self) (.self _), hnames⟩
      · simpa [Env.spots, h₁, h₂, h₃, h, hshape] using hts.append hspots
      · intro u hu v hv
        rcases List.mem_append.1 hu with hu | hu
        · exact .inter (List.mem_append_left _ hu) hv
        · exact .inter (List.mem_append_right _ List.mem_cons_self) (.object hu hv)
    · rw [if_neg hshape]
      refine .done (.of_spots ts ?_ ?_ fun u hu v hv ↦ .inter hu hv)
      · exact fun hobject ↦ absurd hobject.shape hshape
      · simpa [Env.spots, h₁, h₂, h₃, h, hshape] using hts
  case prefixItems =>
    intro s required name cs h₁ h₂ h₄ h h₃ ih
    rw [plainType_prefixItems _ _ _ h₁ h₂ h₃ h₄ h]
    refine .bind (ih.mono fun ts hts ↦ .of_spots ts ?_ ?_ fun u hu v hv ↦ .tuple hu hv)
    · exact fun hobject ↦ by cases h.symm.trans (hobject.items h₄).1
    · simpa [Env.spots, h₁, h₂, h₃, h₄, h] using hts
  case items =>
    intro s required name c h₁ h₂ h₄ h₅ h h₃ ih
    rw [plainType_items _ _ _ h₁ h₂ h₃ h₄ h₅ h]
    refine .bind (ih.mono fun t ht ↦ .of_spots [t] ?_ ?_ ?_)
    · exact fun hobject ↦ by cases h.symm.trans (hobject.items h₄).2
    · simpa [Env.spots, h₁, h₂, h₃, h₄, h₅, h] using Env.ShowsSpots.spot ht
    · rintro u hu v hv
      obtain rfl := List.mem_singleton.1 hu
      exact .array hv
  case object =>
    intro s required name h₁ h₂ h₄ h₅ h₆ h₃ h ih
    rw [plainType_object _ _ _ h₁ h₂ h₃ h₄ h₅ h₆ h]
    refine ih.mono ?_
    rintro _ ⟨ms, index, rfl, hnames, hspots⟩
    apply Env.Shows.of_spots (ms.map Member.type ++ index.toList)
    · exact fun _ ↦ ⟨ms, index, .self _, hnames⟩
    · simpa [Env.spots, h₁, h₂, h₃, h₄, h₅, h₆, h] using hspots
    · exact fun u hu v hv ↦ .object hu hv
  case simple =>
    intro s required name h₁ h₂ h₄ h₅ h₆ h₃ h
    refine .of_forall fun t ↦ .of_spots [] ?_ ?_ (List.forall_mem_nil _)
    · exact fun hobject ↦ absurd hobject.shape h
    · simpa [Env.spots, h₁, h₂, h₃, h₄, h₅, h₆, h] using Env.ShowsSpots.nil
  case members =>
    intro s required ihmembers ihadditional
    rw [objectType]
    refine .bind (ihmembers.mono fun ms hms ↦ .bind (ihadditional.mono fun index hindex ↦ ?_))
    exact ⟨ms, index, rfl, hms.names, hms.spots.append hindex⟩
  case schema =>
    intro c ih
    rw [additionalType]
    exact .bind (ih.mono fun t ht ↦ .spot ht)
  case any | closed | absent =>
    exact .of_forall fun _ ↦ .nil
  case noMember =>
    intro required
    rw [memberTypes]
    exact ⟨rfl, .nil⟩
  case member =>
    intro required name node rest hshown ihnode ihrest
    rw [memberTypes, if_pos hshown]
    refine .bind (ihnode.mono fun t ht ↦ .bind (ihrest.mono fun ms hms ↦ ?_))
    have hkept := Env.keeps_of_singleMode hsingle .base node
    split
    · exact Env.ShowsMembers.cons (m := ⟨name, t, false⟩) hkept ht hms
    · apply Env.ShowsMembers.cons (m := ⟨name, env.optionalType t, true⟩) hkept _ hms
      exact fun s hs ↦ (ht s hs).mono fun v hv ↦ hv.optionalType env
  case hidden =>
    intro required name node rest hhidden
    exact absurd (Env.keeps_of_singleMode hsingle mode node) hhidden
  case noFactor =>
    intro s required
    exact .of_forall fun _ ↦ .nil
  case refFactor =>
    intro s required path cs ih
    rw [factorTypes]
    refine .bind (.of_forall fun ts ↦ .bind (ih.mono fun others hothers ↦ ?_))
    have href : env.ShowsSpots [env.factorSpot (.ref path)] ts :=
      .of_refs fun spot hspot ↦ ⟨_, _, List.mem_singleton.1 hspot⟩
    exact href.append hothers
  case factor =>
    intro s required c cs ihc ihcs
    rw [factorTypes]
    refine .bind (ihc.mono fun t ht ↦ .bind (ihcs.mono fun others hothers ↦ ?_))
    have hspot : env.ShowsSpots [(RefOr.inline c).spot] [orNull c t] := by
      apply Env.ShowsSpots.spot
      rintro _ ⟨⟩
      exact ht.orNull
    exact hspot.cons hothers
  case noNode =>
    exact .of_forall fun _ ↦ .nil
  case node =>
    intro c cs ihc ihcs
    rw [nodeTypes]
    refine .bind (ihc.mono fun t ht ↦ .bind (ihcs.mono fun ts hts ↦ ?_))
    exact .cons (.spot ht) hts

end

end ApiClient
