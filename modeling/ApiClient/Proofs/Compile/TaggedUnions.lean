import ApiClient.Proofs.Compile.Declaring
import ApiClient.Proofs.Compile.Termination
import ApiClient.Proofs.Document.Lookup

/-!
# The members of a tagged union

A union with a discriminator has a member for each entry of the mapping and then one for each
variant that the mapping does not cover. What the mapping covers is told by the last parts of
references alone, so a variant is lost if its reference ends like that of another schema in the
mapping.
-/

namespace ApiClient

open TypeScript

/-! ## Entries -/

namespace Discriminator

variable (d : Discriminator) (variants : List (RefOr Schema))

/-- The last parts of the references in the mapping. -/
def mappedNames : List String := (Table.values d.mapping).map Pointer.baseName

/-- The entries that the members of a union are made of: those of the mapping, and then those of the
variants that it does not cover. -/
def entries : List (String × String) := d.mapping ++ implicitEntries d.mappedNames variants

end Discriminator

theorem mem_values_implicitEntries {mapped : List String} {variants : List (RefOr Schema)}
    {path : String} : path ∈ Table.values (implicitEntries mapped variants) ↔
      .ref path ∈ variants ∧ Pointer.baseName path ∉ mapped := by
  constructor
  · intro h
    obtain ⟨⟨value, path⟩, hentry, rfl⟩ := List.mem_map.1 h
    obtain ⟨hvariant, hnot, -⟩ := mem_implicitEntries.1 hentry
    exact ⟨hvariant, hnot⟩
  · rintro ⟨hvariant, hnot⟩
    exact List.mem_map.2 ⟨_, mem_implicitEntries.2 ⟨hvariant, hnot, rfl⟩, rfl⟩

/-- The reference of a variant is among the entries unless the mapping has only other references
that end like it. -/
theorem Discriminator.mem_values_entries {d : Discriminator} {variants : List (RefOr Schema)}
    {path : String} (h : .ref path ∈ variants) :
    path ∈ Table.values (d.entries variants) ↔
      path ∈ Table.values d.mapping ∨ Pointer.baseName path ∉ d.mappedNames := by
  rw [entries, Table.values, List.map_append, List.mem_append, ← Table.values, ← Table.values,
    mem_values_implicitEntries, and_iff_right h]

/-! ## Members -/

/-- References get their types one after the other, each in the context that the one before
leaves. -/
inductive Env.InTurn (env : Env) (mode : Mode) : List String → Context → List Ty → Context → Prop
    where
  | nil (ctx : Context) : InTurn env mode [] ctx [] ctx
  | cons {path : String} {paths : List String} {ctx ctx₁ ctx' : Context} {t : Ty} {ts : List Ty}
      (h : (env.referenceType path mode).outcome ctx = (.ok t, ctx₁))
      (hrest : InTurn env mode paths ctx₁ ts ctx') :
      InTurn env mode (path :: paths) ctx (t :: ts) ctx'

def taggedMember (property : String) (entry : String × String) (t : Ty) : Ty :=
  .inter [tag property entry.1, t]

theorem Plan.run_bind {α β : Type} (x : Plan α) (f : α → Plan β) (answer : Follow) :
    (x >>= f).run answer = x.run answer >>= fun a ↦ (f a).run answer := by
  induction x with
  | done a => rfl
  | act b next ih => simp only [act_bind, run, bind_assoc, ih]
  | meet path mode plain next ih => simp only [meet_bind, run, bind_assoc, ih]

theorem Plan.run_follow (path : String) (mode : Mode) (plain : Bool) (answer : Follow) :
    (follow path mode plain).run answer = answer path mode plain :=
  bind_pure _

theorem Plan.outcome_lift_bind {α β : Type} {x : Except CompileError α} {f : α → Plan β}
    {answer : Follow} {ctx ctx' : Context} {b : β} :
    (((liftM x : Plan α) >>= f).run answer).outcome ctx = (.ok b, ctx') ↔
      ∃ a, x = .ok a ∧ ((f a).run answer).outcome ctx = (.ok b, ctx') := by
  refine Build.outcome_bind_eq_ok.trans ⟨?_, ?_⟩
  · rintro ⟨a, ctx₁, ha, hf⟩
    cases ha
    exact ⟨a, rfl, hf⟩
  · rintro ⟨a, rfl, hf⟩
    exact ⟨a, ctx, rfl, hf⟩

section

variable {env : Env} {property : String} {mode : Mode} {ctx ctx' : Context}

/-- The members of a tagged union are its tagged entries, of which each has the type of its
reference. -/
theorem outcome_taggedMembers {entries : List (String × String)} {members : List Ty} :
    ((taggedMembers property mode entries).run (referenceType env env.hops)).outcome ctx =
        (.ok members, ctx') ↔
      ∃ ts, env.InTurn mode (Table.values entries) ctx ts ctx' ∧
        members = List.zipWith (taggedMember property) entries ts := by
  induction entries generalizing ctx members with
  | nil =>
    constructor
    · intro h
      cases h
      exact ⟨[], .nil _, rfl⟩
    · rintro ⟨_, ⟨⟩, rfl⟩
      rfl
  | cons entry rest ih =>
    rw [taggedMembers, Plan.run_bind, Plan.run_follow, Build.outcome_bind_eq_ok]
    simp only [Plan.run_bind, Build.outcome_bind_eq_ok]
    constructor
    · rintro ⟨t, ctx₁, ht, others, ctx₂, hothers, ⟨⟩⟩
      obtain ⟨ts, hts, rfl⟩ := ih.1 hothers
      exact ⟨t :: ts, .cons ht hts, rfl⟩
    · rintro ⟨_, hturn, rfl⟩
      cases hturn with
      | cons ht hts => exact ⟨_, _, ht, _, _, ih.2 ⟨_, hts, rfl⟩, rfl⟩

theorem outcome_taggedUnion {variants : List (RefOr Schema)} {d : Discriminator}
    (hproperty : d.property = some property) {t : Ty} :
    ((taggedUnion variants d mode).run (referenceType env env.hops)).outcome ctx = (.ok t, ctx') ↔
      (∀ c ∈ variants, ∃ path, c = .ref path) ∧
      ∃ ts, env.InTurn mode (Table.values (d.entries variants)) ctx ts ctx' ∧
        t = .unionOf (List.zipWith (taggedMember property) (d.entries variants) ts) := by
  have hrequired : d.requireProperty = .ok property := by
    rw [Discriminator.requireProperty, hproperty]
    rfl
  simp only [taggedUnion, Plan.outcome_lift_bind, hrequired, Except.ok.injEq, exists_eq_left',
    unmapped_eq_ok]
  simp only [Plan.run_bind, Build.outcome_bind_eq_ok, outcome_taggedMembers]
  constructor
  · rintro ⟨_, ⟨hrefs, rfl⟩, _, ctx₁, ⟨ts, hturn, rfl⟩, ⟨⟩⟩
    exact ⟨hrefs, ts, hturn, rfl⟩
  · rintro ⟨hrefs, ts, hturn, rfl⟩
    exact ⟨_, ⟨hrefs, rfl⟩, _, _, ⟨ts, hturn, rfl⟩, rfl⟩

/-- Compiling a union with a discriminator comes to a type exactly if the variants are references
and all entries get types. -/
theorem outcome_schemaType_tagged {s : Schema} {variants : List (RefOr Schema)} {d : Discriminator}
    (honeOf : s.oneOf = some variants) (hd : s.discriminator = some d)
    (hproperty : d.property = some property) {name : Option String} {t : Ty} :
    (env.schemaType (some (.inline s)) name mode).outcome ctx = (.ok t, ctx') ↔
      (∀ c ∈ variants, ∃ path, c = .ref path) ∧
      ∃ ts, env.InTurn mode (Table.values (d.entries variants)) ctx ts ctx' ∧
        t = orNull s (.unionOf (List.zipWith (taggedMember property) (d.entries variants) ts)) := by
  rw [Env.schemaType, schemaPlan, nodeType, plainType_oneOf_tagged _ _ _ honeOf hd, Plan.run_bind,
    Build.outcome_bind_eq_ok]
  simp only [outcome_taggedUnion hproperty]
  constructor
  · rintro ⟨_, ctx₁, ⟨hrefs, ts, hturn, rfl⟩, ⟨⟩⟩
    exact ⟨hrefs, ts, hturn, rfl⟩
  · rintro ⟨hrefs, ts, hturn, rfl⟩
    exact ⟨_, _, ⟨hrefs, ts, hturn, rfl⟩, rfl⟩

end

/-- A union with a discriminator is made of the entries of the mapping, in their order, and of those
of the variants that the mapping does not cover, and of nothing else. All variants are references,
and one of them is left out exactly if the mapping has only other references that end like it. -/
theorem tagged_union_members {env : Env} {s : Schema} {variants : List (RefOr Schema)}
    {d : Discriminator} {property : String} (honeOf : s.oneOf = some variants)
    (hd : s.discriminator = some d) (hproperty : d.property = some property)
    {name : Option String} {mode : Mode} {ctx ctx' : Context} {t : Ty}
    (hout : (env.schemaType (some (.inline s)) name mode).outcome ctx = (.ok t, ctx')) :
    (∃ ts, env.InTurn mode (Table.values (d.entries variants)) ctx ts ctx' ∧
      t = orNull s (.unionOf (List.zipWith (taggedMember property) (d.entries variants) ts))) ∧
    ∀ c ∈ variants, ∃ path, c = .ref path ∧ (path ∈ Table.values (d.entries variants) ↔
      path ∈ Table.values d.mapping ∨ Pointer.baseName path ∉ d.mappedNames) := by
  obtain ⟨hrefs, hmembers⟩ := (outcome_schemaType_tagged honeOf hd hproperty).1 hout
  refine ⟨hmembers, fun c hc ↦ ?_⟩
  obtain ⟨path, rfl⟩ := hrefs c hc
  exact ⟨path, rfl, d.mem_values_entries hc⟩

namespace Zoo

/-- A document with a component and a property of the same name. -/
def env : Env where
  snapshot := { root := .obj [("components", .obj [("schemas", .obj [
    ("Cat", .obj [("type", .str "object")]),
    ("Zoo", .obj [("properties", .obj [("Cat", .obj [("type", .str "string")])])])])])] }
  discriminating := []
  options := { singleMode := true }

def cat : Schema where
  types := some (.one .object)

def discriminator : Discriminator where
  property := some "kind"
  mapping := [("cat", "#/components/schemas/Cat")]

def variants : List (RefOr Schema) :=
  [.ref "#/components/schemas/Cat", .ref "#/components/schemas/Zoo/properties/Cat"]

def animal : Schema where
  oneOf := some variants
  discriminator := some discriminator

theorem target_cat : env.target "#/components/schemas/Cat" false = .ok cat := by
  refine Env.target_of_lookup rfl ?_
  with_unfolding_all rfl

theorem name_cat : toIdentifier (Pointer.displayName "#/components/schemas/Cat") true = "Cat" := by
  decide +kernel

theorem outcome_cat : ∃ ctx, (env.referenceType "#/components/schemas/Cat" .base).outcome {} =
    (.ok (.named "Cat"), ctx) := by
  have hbody {around : Around} (ctx : Context) :
      Runs env around (inlineType env cat none .base) ctx (.ok (.keyword .object)) ctx [] := by
    have hshape : ¬cat.hasObjectShape = true := Bool.false_ne_true
    rw [inlineType, nodeType, plainType_simple _ _ _ rfl rfl rfl rfl rfl rfl hshape]
    exact .act rfl (.done _)
  have hcounts :
      Names.allocate (toIdentifier (Pointer.displayName "#/components/schemas/Cat") true) [] =
        ("Cat", [("Cat", 1)]) :=
    congrArg (Names.allocate · []) name_cat
  have hrun (around : Around) :
      Runs env around (referencePlan env "#/components/schemas/Cat" .base false) {} _ _ _ :=
    .declared rfl target_cat rfl hcounts (.modes (hbody _) rfl (.same _) (.same _)) rfl
  exact ⟨_, (env.ends_follow _ _ _ _).unique ⟨_, .meet (hrun _) (.done _)⟩⟩

theorem outcome_animal : ∃ ctx, (env.schemaType (some (.inline animal)) none .base).outcome {} =
    (.ok (.inter [tag "kind" "cat", .named "Cat"]), ctx) := by
  have hentries : discriminator.entries variants = [("cat", "#/components/schemas/Cat")] := by
    decide +kernel
  have hrefs : ∀ c ∈ variants, ∃ path, c = .ref path :=
    List.forall_mem_cons.2 ⟨⟨_, rfl⟩, List.forall_mem_singleton.2 ⟨_, rfl⟩⟩
  obtain ⟨ctx, hcat⟩ := outcome_cat
  refine ⟨ctx, (outcome_schemaType_tagged rfl rfl rfl).2 ⟨hrefs, [.named "Cat"], ?_, ?_⟩⟩
  · rw [hentries]
    exact .cons hcat (.nil ctx)
  · rw [hentries]
    rfl

end Zoo

open Zoo in
/-- A variant is left out of a union, as the mapping has another reference that ends like it. -/
theorem variant_left_out : ∃ ctx,
    (env.schemaType (some (.inline animal)) none .base).outcome {} =
      (.ok (.inter [tag "kind" "cat", .named "Cat"]), ctx) ∧
    .ref "#/components/schemas/Zoo/properties/Cat" ∈ variants ∧
    "#/components/schemas/Zoo/properties/Cat" ∉ Table.values (discriminator.entries variants) := by
  obtain ⟨ctx, hout⟩ := outcome_animal
  obtain ⟨-, hvariants⟩ := tagged_union_members rfl rfl rfl hout
  have hmem : .ref "#/components/schemas/Zoo/properties/Cat" ∈ variants :=
    List.mem_cons_of_mem _ List.mem_cons_self
  obtain ⟨path, hpath, hcovered⟩ := hvariants _ hmem
  cases hpath
  refine ⟨ctx, hout, hmem, fun hlisted ↦ (hcovered.1 hlisted).elim (by decide) (absurd ?_)⟩
  decide +kernel

end ApiClient
