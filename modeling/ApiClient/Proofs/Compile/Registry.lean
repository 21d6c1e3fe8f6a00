import ApiClient.Proofs.Compile.Enums
import ApiClient.Proofs.Compile.Histories
import ApiClient.Proofs.Compile.Signatures

/-!
# The register of enumerations

The register has one entry for each name that enumerations propose. An enumeration with the text of
the entry shares the declaration that was entered; any other is declared anew and takes over the
entry. So the entry for a name goes back to the latest enumeration that was declared for it.
-/

namespace ApiClient

open TypeScript

/-- An enumeration that is compiled, with its type and the contexts before and after it. -/
structure Enumeration where
  schema : Schema
  name : String
  before : Context
  type : Ty
  after : Context

namespace Enumeration

def step (e : Enumeration) : Step :=
  ⟨declareEnum e.schema e.name, e.before, e.type, e.after⟩

def proposal (e : Enumeration) : String :=
  e.schema.proposal e.name

def values (e : Enumeration) : List Json.Value :=
  e.schema.enumValues.getD []

def Makes (e : Enumeration) (declaration : Declaration) : Prop :=
  e.after.enumDeclarations = e.before.enumDeclarations ++ [declaration]

def Fresh (e : Enumeration) : Prop :=
  ∃ declaration, e.Makes declaration

/-- The enumeration has the type that is entered for its text. -/
structure Shares (e : Enumeration) (text : String) : Prop where
  entry : Table.get? e.proposal e.before.enums = some ⟨text, e.type⟩
  after : e.after = e.before

/-- The enumeration is declared with its values and takes over the entry. -/
structure Enters (e : Enumeration) (text : String) : Prop where
  other : ∀ entry, Table.get? e.proposal e.before.enums = some entry → entry.signature ≠ text
  enums : e.after.enums = Table.put e.proposal ⟨text, e.type⟩ e.before.enums
  declares : ∃ name members, e.type = .named name ∧ e.Makes (.enum name members) ∧
    memberValues members = e.values

variable {e : Enumeration} {text : String}

theorem shares_or_enters (h : e.step.Sound) :
    ∃ text, signature e.values = .ok text ∧ (e.Shares text ∨ e.Enters text) := by
  obtain ⟨text, htext, ⟨hentry, hsame⟩ | ⟨hother, hnew⟩⟩ := Build.declareEnum_eq_ok.1 h
  · exact ⟨text, htext, .inl ⟨hentry, hsame⟩⟩
  · obtain ⟨name, counts, members, -, -, hmembers, htype, hafter⟩ := Build.newEnum_eq_ok.1 hnew
    have hmakes : e.Makes (.enum name members) := congrArg Context.enumDeclarations hafter
    have henums : e.after.enums = Table.put e.proposal ⟨text, e.type⟩ e.before.enums := by
      rw [show e.type = .named name from htype]
      exact congrArg Context.enums hafter
    exact ⟨text, htext, .inr
      ⟨hother, henums, name, members, htype, hmakes, memberValues_of_enumMembers hmembers⟩⟩

theorem Shares.not_fresh (h : e.Shares text) : ¬e.Fresh := by
  rintro ⟨declaration, hmakes⟩
  rw [Makes, h.after] at hmakes
  exact List.cons_ne_nil _ _ (List.self_eq_append_right.1 hmakes)

theorem Enters.fresh (h : e.Enters text) : e.Fresh := by
  obtain ⟨name, members, -, hmakes, -⟩ := h.declares
  exact ⟨_, hmakes⟩

theorem enters_of_fresh (h : e.step.Sound) (hfresh : e.Fresh) :
    ∃ text, signature e.values = .ok text ∧ e.Enters text := by
  obtain ⟨text, htext, hshares | henters⟩ := shares_or_enters h
  · exact absurd hfresh hshares.not_fresh
  · exact ⟨text, htext, henters⟩

theorem entry_after (h : e.step.Sound) : ∃ text, signature e.values = .ok text ∧
    Table.get? e.proposal e.after.enums = some ⟨text, e.type⟩ := by
  obtain ⟨text, htext, hshares | henters⟩ := shares_or_enters h
  · exact ⟨text, htext, hshares.after ▸ hshares.entry⟩
  · refine ⟨text, htext, ?_⟩
    rw [henters.enums, Table.get?_put, if_pos rfl]

theorem makes_congr {e' : Enumeration} (h : e.step = e'.step) {declaration : Declaration} :
    e.Makes declaration ↔ e'.Makes declaration := by
  have hbefore : e.before = e'.before := congrArg Step.before h
  have hafter : e.after = e'.after := congrArg Step.after h
  rw [Makes, Makes, hbefore, hafter]

theorem fresh_congr {e' : Enumeration} (h : e.step = e'.step) : e.Fresh ↔ e'.Fresh :=
  exists_congr fun _ ↦ makes_congr h

theorem values_eq_of_step {e' : Enumeration} (h : e.step = e'.step) (hsound : e.step.Sound)
    (hfresh : e.Fresh) : e.values = e'.values := by
  obtain ⟨text, -, he⟩ := enters_of_fresh hsound hfresh
  obtain ⟨text', -, he'⟩ := enters_of_fresh (h ▸ hsound) ((fresh_congr h).1 hfresh)
  obtain ⟨name, members, -, hmakes, hvalues⟩ := he.declares
  obtain ⟨name', members', -, hmakes', hvalues'⟩ := he'.declares
  have hsame : [Declaration.enum name members] = [Declaration.enum name' members'] :=
    List.append_cancel_left (hmakes.symm.trans ((makes_congr h).2 hmakes'))
  cases hsame
  rw [← hvalues, ← hvalues']

theorem proposal_eq_of_step {e' : Enumeration} (h : e.step = e'.step) (hsound : e.step.Sound)
    (hfresh : e.Fresh) : e.proposal = e'.proposal := by
  by_contra hne
  have hbefore : e.before = e'.before := congrArg Step.before h
  have hafter : e.after = e'.after := congrArg Step.after h
  obtain ⟨text, -, he⟩ := enters_of_fresh hsound hfresh
  obtain ⟨text', -, he'⟩ := enters_of_fresh (h ▸ hsound) ((fresh_congr h).1 hfresh)
  have hentry : Table.get? e.proposal e.before.enums = some ⟨text, e.type⟩ :=
    calc
      _ = Table.get? e.proposal e'.after.enums := by
        rw [he'.enums, Table.get?_put, if_neg (Ne.symm hne), hbefore]
      _ = Table.get? e.proposal e.after.enums := by rw [hafter]
      _ = some ⟨text, e.type⟩ := by rw [he.enums, Table.get?_put, if_pos rfl]
  exact he.other _ hentry rfl

end Enumeration

/-- A step that compiles an enumeration, or has nothing to do with them. -/
inductive EnumStep : (σ : Type) → Build σ → Prop where
  | declare (s : Schema) (name : String) : EnumStep Ty (declareEnum s name)
  | other {σ : Type} {b : Build σ}
      (h : b.Keeps fun ctx ↦ (ctx.enums, ctx.enumDeclarations)) : EnumStep σ b

theorem EnumStep.simple (env : Env) (s : Schema) (name : Option String) :
    EnumStep Ty (simpleType env s name) := by
  unfold simpleType
  repeat' split
  all_goals first
    | exact .declare _ _
    | exact .other (.lift _)

theorem admits_enumStep (env : Env) : AdmitsReferences env EnumStep where
  simple := .simple env
  lift _ := .other (.lift _)
  resolve _ := .other (.ofResolve _)
  get := .other .get
  allocate _ := .other (.allocate (fun _ _ ↦ rfl) _)
  register _ _ := .other fun _ ↦ rfl
  declareType _ _ := .other fun _ ↦ rfl
  declareEnum := .declare
  marks node := .other (Env.keeps_nodeMarks (fun _ _ ↦ rfl) env node)

theorem History.enumCourse {env : Env} {ctx : Context} {steps : List Step}
    (h : History env ctx steps) : Course EnumStep {} steps ctx :=
  h.course (admits_enumStep env) fun _ ↦ .other fun _ ↦ rfl

theorem Step.same_or_enters {step : Step} (h : step.Sound) (hstep : EnumStep _ step.action) :
    (step.after.enums = step.before.enums ∧
        step.after.enumDeclarations = step.before.enumDeclarations) ∨
      ∃ e : Enumeration, step = e.step ∧ ∃ text, signature e.values = .ok text ∧
        e.Enters text := by
  obtain ⟨action, before, result, after⟩ := step
  cases hstep with
  | declare s name =>
    let e : Enumeration := ⟨s, name, before, result, after⟩
    obtain ⟨text, htext, hshares | henters⟩ := Enumeration.shares_or_enters (e := e) h
    · exact .inl ⟨congrArg Context.enums hshares.after,
        congrArg Context.enumDeclarations hshares.after⟩
    · exact .inr ⟨e, rfl, text, htext, henters⟩
  | other hkeeps =>
    have hsame := hkeeps before
    rw [show action.outcome before = (.ok result, after) from h, Prod.mk.injEq] at hsame
    exact .inl hsame

/-- The latest enumeration that was declared for a proposed name. -/
def Latest (steps : List Step) (key : String) (d : Enumeration) : Prop :=
  d.proposal = key ∧ d.Fresh ∧ ∃ earlier later, steps = earlier ++ d.step :: later ∧
    ∀ e : Enumeration, e.step ∈ later → e.proposal = key → ¬e.Fresh

theorem exists_latest {steps : List Step} {e : Enumeration} (he : e.step ∈ steps)
    (hfresh : e.Fresh) : ∃ d, Latest steps e.proposal d := by
  induction steps generalizing e with
  | nil => cases he
  | cons first rest ih =>
    by_cases hrest : ∃ e' : Enumeration, e'.step ∈ rest ∧ e'.proposal = e.proposal ∧ e'.Fresh
    · obtain ⟨e', he', hproposal, hfresh'⟩ := hrest
      obtain ⟨d, hd, hdfresh, earlier, later, rfl, hlater⟩ := ih he' hfresh'
      rw [hproposal] at hd hlater
      exact ⟨d, hd, hdfresh, first :: earlier, later, rfl, hlater⟩
    · rcases List.mem_cons.1 he with rfl | he
      · refine ⟨e, rfl, hfresh, [], rest, rfl, fun e' he' hproposal hfresh' ↦ ?_⟩
        exact hrest ⟨e', he', hproposal, hfresh'⟩
      · exact absurd ⟨e, he, rfl, hfresh⟩ hrest

namespace Latest

variable {steps before after : List Step} {key : String} {d d' e : Enumeration}

theorem append (hd : Latest before key d)
    (hafter : ∀ e : Enumeration, e.step ∈ after → e.proposal = key → ¬e.Fresh) :
    Latest (before ++ after) key d := by
  obtain ⟨hkey, hfresh, earlier, later, rfl, hlater⟩ := hd
  refine ⟨hkey, hfresh, earlier, later ++ after, by simp, fun e he hkey' ↦ ?_⟩
  rcases List.mem_append.1 he with he | he
  · exact hlater e he hkey'
  · exact hafter e he hkey'

theorem concat (hd : Latest before key d) (he : ¬e.Fresh) : Latest (before ++ [e.step]) key d := by
  apply hd.append
  intro e' he' _
  rwa [Enumeration.fresh_congr (List.mem_singleton.1 he')]

theorem self (he : e.Fresh) : Latest (before ++ [e.step]) e.proposal e :=
  ⟨rfl, he, before, [], rfl, fun e' he' ↦ by cases he'⟩

theorem step_eq (h : Latest steps key d) (h' : Latest steps key d') : d.step = d'.step := by
  obtain ⟨hkey, hfresh, earlier, later, hsteps, hlater⟩ := h
  obtain ⟨hkey', hfresh', earlier', later', hsteps', hlater'⟩ := h'
  rcases List.append_eq_append_iff.1 (hsteps.symm.trans hsteps') with
    ⟨between, -, hbetween⟩ | ⟨between, -, hbetween⟩
  · cases between with
    | nil => exact (List.cons_eq_cons.1 hbetween).1
    | cons first between =>
      have hmem : d'.step ∈ later := (List.cons_eq_cons.1 hbetween).2 ▸ by simp
      exact absurd hfresh' (hlater d' hmem hkey')
  · cases between with
    | nil => exact (List.cons_eq_cons.1 hbetween).1.symm
    | cons first between =>
      have hmem : d.step ∈ later' := (List.cons_eq_cons.1 hbetween).2 ▸ by simp
      exact absurd hfresh (hlater' d hmem hkey)

end Latest

namespace Course

variable {ctx ctx' : Context} {steps : List Step} {e : Enumeration} {key text : String} {t : Ty}

theorem entry_same (h : Course EnumStep ctx steps ctx')
    (hold : ∀ e : Enumeration, e.step ∈ steps → e.proposal = key → ¬e.Fresh) :
    Table.get? key ctx'.enums = Table.get? key ctx.enums := by
  induction h with
  | nil _ => rfl
  | @cons step rest _ hstep hkind _ ih =>
    rw [ih fun e he ↦ hold e (List.mem_cons_of_mem _ he)]
    rcases step.same_or_enters hstep hkind with hsame | ⟨e, rfl, text, -, he⟩
    · rw [hsame.1]
    · have hkey : e.proposal ≠ key := fun hkey ↦ hold e List.mem_cons_self hkey he.fresh
      show Table.get? key e.after.enums = Table.get? key e.before.enums
      rw [he.enums, Table.get?_put, if_neg hkey]

/-- An entry stays as long as the enumerations that propose its name have its text. -/
theorem entry_kept (h : Course EnumStep ctx steps ctx')
    (hentry : Table.get? key ctx.enums = some ⟨text, t⟩)
    (hsame : ∀ e : Enumeration, e.step ∈ steps → e.proposal = key → signature e.values = .ok text) :
    Table.get? key ctx'.enums = some ⟨text, t⟩ := by
  induction h with
  | nil _ => exact hentry
  | @cons step rest _ hstep hkind _ ih =>
    refine ih ?_ fun e he ↦ hsame e (List.mem_cons_of_mem _ he)
    rcases step.same_or_enters hstep hkind with hfixed | ⟨e, rfl, text', htext', he⟩
    · rw [hfixed.1, hentry]
    · have hkey : e.proposal ≠ key := by
        rintro rfl
        have htext := hsame e List.mem_cons_self rfl
        exact he.other _ hentry (Except.ok.inj (htext.symm.trans htext'))
      show Table.get? key e.after.enums = some ⟨text, t⟩
      rw [he.enums, Table.get?_put, if_neg hkey]
      exact hentry

theorem entry_of_latest (h : Course EnumStep ctx steps ctx') {d : Enumeration}
    (hd : Latest steps key d) :
    ∃ text, signature d.values = .ok text ∧ Table.get? key ctx'.enums = some ⟨text, d.type⟩ := by
  obtain ⟨rfl, -, earlier, later, rfl, hlater⟩ := hd
  obtain ⟨-, hstep, hrest⟩ := h.split
  obtain ⟨text, htext, hentry⟩ := Enumeration.entry_after hstep
  exact ⟨text, htext, (hrest.entry_same hlater).trans hentry⟩

theorem latest_of_entry (h : Course EnumStep {} steps ctx) {entry : EnumEntry}
    (hentry : Table.get? key ctx.enums = some entry) : ∃ d, Latest steps key d := by
  by_contra hnone
  have hold : ∀ e : Enumeration, e.step ∈ steps → e.proposal = key → ¬e.Fresh := by
    rintro e he rfl hfresh
    exact hnone (exists_latest he hfresh)
  rw [h.entry_same hold] at hentry
  cases hentry

theorem declarations_prefix (h : Course EnumStep ctx steps ctx') :
    ctx.enumDeclarations <+: ctx'.enumDeclarations := by
  induction h with
  | nil _ => exact List.prefix_refl _
  | @cons step rest _ hstep hkind _ ih =>
    apply List.IsPrefix.trans _ ih
    rcases step.same_or_enters hstep hkind with hsame | ⟨e, rfl, text, -, he⟩
    · exact hsame.2 ▸ List.prefix_refl _
    · obtain ⟨declaration, hmakes⟩ := he.fresh
      exact ⟨[declaration], hmakes.symm⟩

theorem mem_of_makes (h : Course EnumStep ctx steps ctx') (he : e.step ∈ steps)
    {declaration : Declaration} (hmakes : e.Makes declaration) :
    declaration ∈ ctx'.enumDeclarations := by
  obtain ⟨earlier, later, rfl⟩ := List.append_of_mem he
  obtain ⟨-, -, hrest⟩ := h.split
  have hmem : declaration ∈ e.after.enumDeclarations := by
    rw [hmakes]
    exact List.mem_append_right _ List.mem_cons_self
  exact hrest.declarations_prefix.subset hmem

theorem maker (h : Course EnumStep ctx steps ctx') {i : Nat} {declaration : Declaration}
    (hi : ctx.enumDeclarations.length ≤ i)
    (hdeclaration : ctx'.enumDeclarations[i]? = some declaration) :
    ∃ earlier e later, steps = earlier ++ Enumeration.step e :: later ∧
      e.before.enumDeclarations.length = i ∧ e.Makes declaration := by
  induction h with
  | nil _ =>
    obtain ⟨hlt, -⟩ := List.getElem?_eq_some_iff.1 hdeclaration
    omega
  | @cons step rest ctx' hstep hkind hrest ih =>
    by_cases hafter : step.after.enumDeclarations.length ≤ i
    · obtain ⟨earlier, e, later, rfl, hlength, hmakes⟩ := ih hafter hdeclaration
      exact ⟨step :: earlier, e, later, rfl, hlength, hmakes⟩
    -- the declaration is the one that this step adds
    rcases step.same_or_enters hstep hkind with hsame | ⟨e, rfl, text, -, he⟩
    · rw [hsame.2] at hafter
      exact absurd hi hafter
    · obtain ⟨made, hmakes⟩ := he.fresh
      have hlength : e.before.enumDeclarations.length = i := by
        have hadded : e.after.enumDeclarations.length = e.before.enumDeclarations.length + 1 := by
          rw [hmakes, List.length_append, List.length_singleton]
        have hi' : e.before.enumDeclarations.length ≤ i := hi
        have hafter' : ¬e.after.enumDeclarations.length ≤ i := hafter
        omega
      have hmade : ctx'.enumDeclarations[i]? = some made := by
        obtain ⟨more, hmore⟩ := hrest.declarations_prefix
        have hwhole : e.before.enumDeclarations ++ [made] ++ more = ctx'.enumDeclarations :=
          hmakes ▸ hmore
        rw [← hwhole, ← hlength]
        simp
      rw [hmade, Option.some.injEq] at hdeclaration
      exact ⟨[], e, rest, rfl, hlength, hdeclaration ▸ hmakes⟩

end Course

end ApiClient
