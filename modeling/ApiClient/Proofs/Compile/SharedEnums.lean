import ApiClient.Proofs.Compile.Registry

/-!
# Shared enumerations

The values that an enumeration is declared with are its own, unless it shares the declaration of
another one whose texts fall into the same pieces. Enumerations with equal values that propose the
same name share a declaration, as long as no enumeration with other values that proposes the name
comes between them.
-/

namespace ApiClient

open TypeScript

variable {ctx : Context} {steps before between after : List Step}
  {d e : Enumeration} {key text : String} {t : Ty}

/-- An enumeration that is compiled after some steps has the declaration that was made for `d`. -/
structure Enumeration.Uses (e : Enumeration) (before : List Step) (d : Enumeration) : Prop where
  latest : Latest (before ++ [e.step]) e.proposal d
  type : e.type = d.type

namespace Course

theorem concat (h : Course EnumStep ctx before e.before) (he : e.step.Sound) :
    Course EnumStep ctx (before ++ [e.step]) e.after :=
  h.append (.cons he (.declare _ _) (.nil _))

theorem exists_uses (h : Course EnumStep {} before e.before) (he : e.step.Sound) :
    ∃ d, e.Uses before d ∧ SamePieces d.values e.values := by
  obtain ⟨text, htext, hentry⟩ := Enumeration.entry_after he
  obtain ⟨d, hd⟩ := (h.concat he).latest_of_entry hentry
  obtain ⟨text', htext', hentry'⟩ := (h.concat he).entry_of_latest hd
  obtain ⟨rfl, htype⟩ := EnumEntry.mk.inj (Option.some.inj (hentry.symm.trans hentry'))
  exact ⟨d, ⟨hd, htype⟩, samePieces_iff.2 ⟨text, htext', htext⟩⟩

/-- An enumeration shares a declaration exactly if its texts fall into the pieces of the values that
were last declared for its name. -/
theorem not_fresh_iff (h : Course EnumStep {} before e.before) (he : e.step.Sound) :
    ¬e.Fresh ↔ ∃ last, Latest before e.proposal last ∧ SamePieces last.values e.values := by
  obtain ⟨text, htext, hshares | henters⟩ := Enumeration.shares_or_enters he
  · refine iff_of_true hshares.not_fresh ?_
    obtain ⟨last, hlast⟩ := h.latest_of_entry hshares.entry
    obtain ⟨text', htext', hentry⟩ := h.entry_of_latest hlast
    obtain ⟨rfl, -⟩ := EnumEntry.mk.inj (Option.some.inj (hshares.entry.symm.trans hentry))
    exact ⟨last, hlast, samePieces_iff.2 ⟨text, htext', htext⟩⟩
  · refine iff_of_false (not_not_intro henters.fresh) ?_
    rintro ⟨last, hlast, hpieces⟩
    obtain ⟨text₁, htext₁, hentry⟩ := h.entry_of_latest hlast
    obtain ⟨text₂, hlast₂, he₂⟩ := samePieces_iff.1 hpieces
    have hsame : text₁ = text := by
      rw [htext₁, Except.ok.injEq] at hlast₂
      rw [htext, Except.ok.injEq] at he₂
      exact hlast₂.trans he₂.symm
    exact henters.other _ hentry hsame

/-- The values that an enumeration is declared with are its own exactly if those that were last
declared for its name are, in the case that their texts fall into the same pieces. -/
theorem values_eq_iff (h : Course EnumStep {} before e.before) (he : e.step.Sound)
    (hd : e.Uses before d) : d.values = e.values ↔ ∀ last, Latest before e.proposal last →
      SamePieces last.values e.values → last.values = e.values := by
  obtain ⟨hfresh, earlier, later, hsteps, -⟩ := hd.latest.2
  have hsound : d.step.Sound := (h.concat he).sound_of_mem (hsteps ▸ by simp)
  -- a name has one latest declaration, so another account of it has the same values
  have hsame : ∀ last, Latest (before ++ [e.step]) e.proposal last → d.values = last.values :=
    fun last hlast ↦ Enumeration.values_eq_of_step (hd.latest.step_eq hlast) hsound hfresh
  by_cases hnew : e.Fresh
  · refine iff_of_true (hsame e (.self hnew)) fun last hlast hpieces ↦ ?_
    exact absurd hnew ((h.not_fresh_iff he).2 ⟨last, hlast, hpieces⟩)
  · constructor
    · intro hequal last hlast _
      exact (hsame last (hlast.concat hnew)).symm.trans hequal
    · intro hequal
      obtain ⟨last, hlast, hpieces⟩ := (h.not_fresh_iff he).1 hnew
      exact (hsame last (hlast.concat hnew)).trans (hequal last hlast hpieces)

theorem shares (h : Course EnumStep ctx between e.before) (he : e.step.Sound)
    (hentry : Table.get? e.proposal ctx.enums = some ⟨text, t⟩)
    (htext : signature e.values = .ok text)
    (hbetween : ∀ e' : Enumeration, e'.step ∈ between → e'.proposal = e.proposal →
      e'.values = e.values) : e.type = t ∧ ¬e.Fresh := by
  have hkept : Table.get? e.proposal e.before.enums = some ⟨text, t⟩ := by
    apply h.entry_kept hentry
    intro e' he' hkey
    rw [hbetween e' he' hkey, htext]
  obtain ⟨text', htext', hshares | henters⟩ := Enumeration.shares_or_enters he
  · have hsame := Option.some.inj (hshares.entry.symm.trans hkept)
    exact ⟨(EnumEntry.mk.inj hsame).2, hshares.not_fresh⟩
  · have hsame : text = text' := Except.ok.inj (htext.symm.trans htext')
    exact absurd hsame (henters.other _ hkept)

theorem uses_same {e₁ e₂ : Enumeration}
    (h : Course EnumStep {} (before ++ e₁.step :: (between ++ e₂.step :: after)) ctx)
    (hproposal : e₁.proposal = e₂.proposal) (hvalues : e₁.values = e₂.values)
    (hbetween : ∀ e : Enumeration, e.step ∈ between → e.proposal = e₁.proposal →
      e.values = e₁.values) :
    ¬e₂.Fresh ∧ ∃ d, e₁.Uses before d ∧ e₂.Uses (before ++ e₁.step :: between) d := by
  obtain ⟨hbefore, hsound₁, hrest⟩ := h.split
  obtain ⟨hcourse, hsound₂, -⟩ := hrest.split
  obtain ⟨text, htext, hentry⟩ := Enumeration.entry_after hsound₁
  have hold : ∀ e : Enumeration, e.step ∈ between → e.proposal = e₁.proposal → ¬e.Fresh := by
    intro e he hkey
    obtain ⟨earlier, later, rfl⟩ := List.append_of_mem he
    obtain ⟨hearlier, hsound, -⟩ := hcourse.split
    have hequal : e.values = e₁.values := hbetween e he hkey
    refine (hearlier.shares hsound (hkey ▸ hentry) (hequal ▸ htext) fun e' he' hkey' ↦ ?_).2
    exact (hbetween e' (by simp [he']) (hkey'.trans hkey)).trans hequal.symm
  obtain ⟨htype, hold₂⟩ : e₂.type = e₁.type ∧ ¬e₂.Fresh := by
    refine hcourse.shares hsound₂ (hproposal ▸ hentry) (hvalues ▸ htext) fun e he hkey ↦ ?_
    exact (hbetween e he (hkey.trans hproposal.symm)).trans hvalues
  obtain ⟨d, huses, -⟩ := hbefore.exists_uses hsound₁
  have hlatest : Latest (before ++ e₁.step :: between) e₁.proposal d := by
    simpa using huses.latest.append hold
  exact ⟨hold₂, d, huses, hproposal ▸ hlatest.concat hold₂, htype.trans huses.type⟩

theorem makers (h : Course EnumStep {} steps ctx) {i j : Nat} {x y : Declaration} (hij : i < j)
    (hx : ctx.enumDeclarations[i]? = some x) (hy : ctx.enumDeclarations[j]? = some y) :
    ∃ before e₁ between e₂ after,
      steps = before ++ Enumeration.step e₁ :: (between ++ Enumeration.step e₂ :: after) ∧
      e₁.before.enumDeclarations.length = i ∧ e₁.Makes x ∧
      e₂.before.enumDeclarations.length = j ∧ e₂.Makes y := by
  obtain ⟨before, e₁, rest, rfl, hi, hx⟩ := h.maker (Nat.zero_le i) hx
  obtain ⟨-, -, hrest⟩ := h.split
  have hlength : e₁.after.enumDeclarations.length ≤ j := by
    rw [hx, List.length_append, List.length_singleton, hi]
    exact hij
  obtain ⟨between, e₂, after, rfl, hj, hy⟩ := hrest.maker hlength hy
  exact ⟨before, e₁, between, e₂, after, rfl, hi, hx, hj, hy⟩

end Course

/-- An enumeration has a declaration whose values have texts that fall into the same pieces. The
values are the same exactly if no other enumeration with the same pieces is the one that was last
declared for the name. -/
theorem declared_values_iff {env : Env} (h : History env ctx steps)
    (hsteps : steps = before ++ e.step :: after) :
    ∃ d name members, e.Uses before d ∧ e.type = .named name ∧ d.Makes (.enum name members) ∧
      .enum name members ∈ ctx.enumDeclarations ∧ SamePieces (memberValues members) e.values ∧
      (memberValues members = e.values ↔ ∀ last, Latest before e.proposal last →
        SamePieces last.values e.values → last.values = e.values) := by
  subst hsteps
  obtain ⟨hbefore, hsound, -⟩ := h.enumCourse.split
  obtain ⟨d, huses, hpieces⟩ := hbefore.exists_uses hsound
  obtain ⟨hfresh, earlier, later, hd, -⟩ := huses.latest.2
  have hmem : d.step ∈ before ++ [e.step] := hd ▸ by simp
  obtain ⟨text, -, henters⟩ := Enumeration.enters_of_fresh
    ((hbefore.concat hsound).sound_of_mem hmem) hfresh
  obtain ⟨name, members, hname, hmakes, hvalues⟩ := henters.declares
  have hdeclared : .enum name members ∈ ctx.enumDeclarations := by
    rw [List.append_cons] at h
    exact h.enumCourse.mem_of_makes (List.mem_append_left _ hmem) hmakes
  refine ⟨d, name, members, huses, huses.type.trans hname, hmakes, hdeclared, hvalues ▸ hpieces, ?_⟩
  rw [hvalues]
  exact hbefore.values_eq_iff hsound huses

def labels (texts : List String) : Schema where
  enum := some (texts.map .str)

theorem enumValues_labels (texts : List String) :
    (labels texts).enumValues.getD [] = texts.map .str := by
  cases texts <;> rfl

theorem signature_texts (texts : List String) :
    signature (texts.map .str) = .ok (Text.join "_" texts) := by
  refine signature_eq_ok.2 ⟨texts, ?_, rfl⟩
  induction texts with
  | nil => rfl
  | cons s texts ih =>
    rw [List.map_cons, List.mapM_cons, ih]
    rfl

theorem enumMembers_texts (texts : List String) : enumMembers (texts.map .str) none =
    .ok (texts.map fun s ↦ ⟨toIdentifier s true, .str s⟩) := by
  induction texts with
  | nil => rfl
  | cons s texts ih =>
    rw [List.map_cons, enumMembers, Option.map_none, ih]
    rfl

namespace Labels

def env : Env where
  snapshot := { root := .obj [] }
  discriminating := []
  options := { namedEnums := true }

theorem status_key : proposedName (Text.upperFirst "status") = "Status" := by
  decide +kernel

theorem kind_key : proposedName (Text.upperFirst "kind") = "Kind" := by
  decide +kernel

/-- An enumeration of texts that gets a declaration under the name that it proposes. -/
def declared (ctx : Context) (name key : String) (texts : List String) : Enumeration where
  schema := labels texts
  name := name
  before := ctx
  type := .named (Names.allocate key ctx.typeNames).1
  after := ctx.enterEnum (Names.allocate key ctx.typeNames).2 key (Text.join "_" texts)
    (Names.allocate key ctx.typeNames).1 (texts.map fun s ↦ ⟨toIdentifier s true, .str s⟩)

/-- An enumeration of texts that has the type of the entry. -/
def shared (ctx : Context) (name : String) (texts : List String) (t : Ty) : Enumeration where
  schema := labels texts
  name := name
  before := ctx
  type := t
  after := ctx

variable {name key : String} {texts : List String}

theorem proposal_declared (hkey : proposedName (Text.upperFirst name) = key) :
    (declared ctx name key texts).proposal = key := hkey

theorem history (h : History env e.before steps) (he : e.step.Sound)
    (hschema : e.schema = labels texts) (htexts : texts ≠ []) (hname : e.name ≠ "") :
    History env e.after (steps ++ [e.step]) := by
  obtain ⟨s, rest, rfl⟩ := List.exists_cons_of_ne_nil htexts
  have hsimple : simpleType env e.schema (some e.name) = declareEnum e.schema e.name := by
    rw [hschema]
    exact if_pos (by simp [Options.declaresEnum, env, labels, Schema.enumValues, hname])
  have hplan : plainType env e.schema e.schema.required (some e.name) .base =
      liftM (declareEnum e.schema e.name) := by
    have hshape : ¬(labels (s :: rest)).hasObjectShape = true := Bool.false_ne_true
    rw [← hsimple, hschema]
    exact plainType_simple _ _ _ rfl rfl rfl rfl rfl rfl hshape
  refine h.request (.schema (some (.inline e.schema)) (some e.name) .base)
    (t := orNull e.schema e.type) ?_
  rw [schemaPlan, nodeType, hplan]
  exact .act he (.done _)

theorem sound_declared (hkey : proposedName (Text.upperFirst name) = key)
    (hother : ∀ entry, Table.get? key ctx.enums = some entry →
      entry.signature ≠ Text.join "_" texts) : (declared ctx name key texts).step.Sound := by
  subst hkey
  refine Build.declareEnum_eq_ok.2 ⟨Text.join "_" texts, ?_, .inr ⟨hother, ?_⟩⟩
  · exact (enumValues_labels texts).symm ▸ signature_texts texts
  · refine Build.newEnum_eq_ok.2 ⟨_, _, _, rfl, rfl, ?_, rfl, rfl⟩
    exact (enumValues_labels texts).symm ▸ enumMembers_texts texts

theorem history_declared (h : History env ctx steps)
    (hkey : proposedName (Text.upperFirst name) = key)
    (hother : ∀ entry, Table.get? key ctx.enums = some entry →
      entry.signature ≠ Text.join "_" texts) (htexts : texts ≠ []) (hname : name ≠ "") :
    History env (declared ctx name key texts).after
      (steps ++ [(declared ctx name key texts).step]) :=
  history h (sound_declared hkey hother) rfl htexts hname

theorem history_shared (h : History env ctx steps)
    (hkey : proposedName (Text.upperFirst name) = key)
    (hentry : Table.get? key ctx.enums = some ⟨Text.join "_" texts, t⟩) (htexts : texts ≠ [])
    (hname : name ≠ "") : History env ctx (steps ++ [(shared ctx name texts t).step]) := by
  have hsound : (shared ctx name texts t).step.Sound := by
    subst hkey
    refine Build.declareEnum_eq_ok.2 ⟨Text.join "_" texts, ?_, .inl ⟨hentry, rfl⟩⟩
    exact (enumValues_labels texts).symm ▸ signature_texts texts
  exact history h hsound rfl htexts hname

end Labels

/-- One text with an underscore is declared, and two texts get the same enumeration. -/
theorem joined_text_shared : ∃ (env : Env) (ctx : Context) (before : List Step) (e d : Enumeration)
    (name : String) (members : List EnumMember), env.options.namedEnums = true ∧
      History env ctx (before ++ [e.step]) ∧ e.Uses before d ∧ e.type = .named name ∧
      d.Makes (.enum name members) ∧ memberValues members ≠ e.values := by
  let e₁ := Labels.declared {} "status" "Status" ["a_b"]
  let e₂ := Labels.shared e₁.after "status" ["a", "b"] e₁.type
  have hfirst : History Labels.env e₁.after [e₁.step] :=
    Labels.history_declared .start Labels.status_key (fun _ h ↦ nomatch h) (by simp) (by decide)
  have hrun : History Labels.env e₂.after ([e₁.step] ++ [e₂.step]) :=
    Labels.history_shared hfirst Labels.status_key rfl (by simp) (by decide)
  obtain ⟨d, name, members, huses, htype, hmakes, -, -, hiff⟩ := declared_values_iff hrun rfl
  refine ⟨_, _, _, e₂, d, name, members, rfl, hrun, huses, htype, hmakes, fun hequal ↦ ?_⟩
  have hlast : Latest [e₁.step] e₂.proposal e₁ :=
    ⟨rfl, ⟨_, rfl⟩, [], [], rfl, fun _ h ↦ nomatch h⟩
  have hpieces : SamePieces e₁.values e₂.values :=
    samePieces_iff.2 ⟨"a_b", signature_texts ["a_b"], signature_texts ["a", "b"]⟩
  have hvalues : e₁.values = e₂.values := hiff.1 hequal e₁ hlast hpieces
  exact absurd (congrArg List.length hvalues) (by decide)

/-- An enumeration that is compiled after one with equal values that proposes the same name has the
same declaration, unless one with other values that proposes the name comes between them. So there
is one between any two declarations that are made for the same name and values. -/
theorem equal_enums_declared_once {env : Env} (h : History env ctx steps) :
    (∀ before e₁ between e₂ after,
      steps = before ++ Enumeration.step e₁ :: (between ++ Enumeration.step e₂ :: after) →
      e₁.proposal = e₂.proposal → e₁.values = e₂.values →
      (∀ e : Enumeration, e.step ∈ between → e.proposal = e₁.proposal → e.values = e₁.values) →
      ¬e₂.Fresh ∧ ∃ d, e₁.Uses before d ∧ e₂.Uses (before ++ e₁.step :: between) d) ∧
    ∀ i j x y, i < j → ctx.enumDeclarations[i]? = some x → ctx.enumDeclarations[j]? = some y →
      ∃ before e₁ between e₂ after,
        steps = before ++ Enumeration.step e₁ :: (between ++ Enumeration.step e₂ :: after) ∧
        e₁.before.enumDeclarations.length = i ∧ e₁.Makes x ∧
        e₂.before.enumDeclarations.length = j ∧ e₂.Makes y ∧
        (e₁.proposal = e₂.proposal → e₁.values = e₂.values →
          ∃ e : Enumeration, e.step ∈ between ∧ e.proposal = e₁.proposal ∧
            e.values ≠ e₁.values) := by
  constructor
  · rintro before e₁ between e₂ after rfl hproposal hvalues hbetween
    exact h.enumCourse.uses_same hproposal hvalues hbetween
  · intro i j x y hij hx hy
    obtain ⟨before, e₁, between, e₂, after, rfl, hi, hmakes₁, hj, hmakes₂⟩ :=
      h.enumCourse.makers hij hx hy
    refine ⟨before, e₁, between, e₂, after, rfl, hi, hmakes₁, hj, hmakes₂, ?_⟩
    intro hproposal hvalues
    by_contra hnone
    have hequal : ∀ e : Enumeration, e.step ∈ between → e.proposal = e₁.proposal →
        e.values = e₁.values := by
      intro e he hkey
      by_contra hother
      exact hnone ⟨e, he, hkey, hother⟩
    exact (h.enumCourse.uses_same hproposal hvalues hequal).1 ⟨y, hmakes₂⟩

/-- The same texts are compiled under one name before and after an enumeration with another name. -/
theorem declared_once_around_other : ∃ (env : Env) (ctx : Context) (e₁ e e₂ : Enumeration),
    env.options.namedEnums = true ∧ History env ctx [e₁.step, e.step, e₂.step] ∧
      e₁.proposal = e₂.proposal ∧ e₁.values = e₂.values ∧ e.values ≠ e₁.values ∧
      ¬e₂.Fresh ∧ e₂.type = e₁.type := by
  let e₁ := Labels.declared {} "status" "Status" ["a"]
  let e := Labels.declared e₁.after "kind" "Kind" ["b"]
  let e₂ := Labels.shared e.after "status" ["a"] e₁.type
  have hfirst : History Labels.env e₁.after [e₁.step] :=
    Labels.history_declared .start Labels.status_key (fun _ h ↦ nomatch h) (by simp) (by decide)
  have hsecond : History Labels.env e.after [e₁.step, e.step] :=
    Labels.history_declared hfirst Labels.kind_key (fun _ h ↦ nomatch h) (by simp) (by decide)
  have hrun : History Labels.env e₂.after [e₁.step, e.step, e₂.step] :=
    Labels.history_shared hsecond Labels.status_key rfl (by simp) (by decide)
  have hkind : ∀ e' : Enumeration, e'.step ∈ [e.step] → e'.proposal = e₁.proposal →
      e'.values = e₁.values := by
    intro e' he' hkey
    have hstep : e.step = e'.step := (List.mem_singleton.1 he').symm
    have hsound : e.step.Sound := hrun.enumCourse.sound_of_mem (by simp)
    have hproposal : e.proposal = e'.proposal :=
      Enumeration.proposal_eq_of_step hstep hsound ⟨_, rfl⟩
    have hother : e.proposal ≠ e₁.proposal := by
      rw [Labels.proposal_declared Labels.kind_key, Labels.proposal_declared Labels.status_key]
      decide
    exact absurd (hproposal.trans hkey) hother
  obtain ⟨hold, d, huses₁, huses₂⟩ :=
    (equal_enums_declared_once hrun).1 [] e₁ [e.step] e₂ [] rfl rfl rfl hkind
  refine ⟨_, _, e₁, e, e₂, rfl, hrun, rfl, rfl, ?_, hold, huses₂.type.trans huses₁.type.symm⟩
  show [Json.Value.str "b"] ≠ [.str "a"]
  simp

/-- The same texts are declared twice, because other texts take over the name between them. -/
theorem declared_twice_around_same_name : ∃ (env : Env) (ctx : Context) (e₁ e e₂ : Enumeration),
    env.options.namedEnums = true ∧ History env ctx [e₁.step, e.step, e₂.step] ∧
      e₁.proposal = e₂.proposal ∧ e₁.values = e₂.values ∧ e₁.Fresh ∧ e₂.Fresh ∧
      e₂.type ≠ e₁.type := by
  let e₁ := Labels.declared {} "status" "Status" ["a"]
  let e := Labels.declared e₁.after "status" "Status" ["b"]
  let e₂ := Labels.declared e.after "status" "Status" ["a"]
  have hfirst : History Labels.env e₁.after [e₁.step] :=
    Labels.history_declared .start Labels.status_key (fun _ h ↦ nomatch h) (by simp) (by decide)
  have hentry : ∀ entry, Table.get? "Status" e₁.after.enums = some entry →
      entry.signature ≠ "b" := by
    intro entry hentry
    cases hentry
    show "a" ≠ "b"
    decide
  have hsecond : History Labels.env e.after [e₁.step, e.step] :=
    Labels.history_declared hfirst Labels.status_key hentry (by simp) (by decide)
  have hentry' : ∀ entry, Table.get? "Status" e.after.enums = some entry →
      entry.signature ≠ "a" := by
    intro entry hentry
    cases hentry
    show "b" ≠ "a"
    decide
  have hrun : History Labels.env e₂.after [e₁.step, e.step, e₂.step] :=
    Labels.history_declared hsecond Labels.status_key hentry' (by simp) (by decide)
  refine ⟨_, _, e₁, e, e₂, rfl, hrun, rfl, rfl, ⟨_, rfl⟩, ⟨_, rfl⟩, ?_⟩
  have htypes : e₂.type = .named "Status3" ∧ e₁.type = .named "Status" := ⟨rfl, rfl⟩
  rw [htypes.1, htypes.2, ne_eq, Ty.named.injEq]
  decide

end ApiClient
