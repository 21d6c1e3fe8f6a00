import ApiClient.Proofs.Compile.EnumReferences
import ApiClient.Proofs.Compile.Passing
import ApiClient.Proofs.Compile.SharedEnums

/-!
# Faults of enumerations

An enumeration is at fault if one of its values is neither a text nor a number, or if it names its
members and does not have one name for each value. The register is asked before any of this is
looked at, and only a list or a table among the values is found before that. So an enumeration that
is at fault passes wherever the latest one that was declared for its name falls into the same
pieces, and there is always a way to declare such a one first.
-/

namespace ApiClient

open TypeScript Json

namespace Json.Value

/-- A member of an enumeration can stand for the value. -/
def hasMember : Value → Bool
  | .str _ | .num _ => true
  | .null | .bool _ | .arr _ | .obj _ => false

/-- The value is no list and no table, so it has a text among those that an enumeration is known by.
-/
def hasText : Value → Bool
  | .str _ | .num _ | .null | .bool _ => true
  | .arr _ | .obj _ => false

variable {v : Value}

theorem hasText_of_hasMember (h : v.hasMember) : v.hasText := by
  cases v <;> first | rfl | cases h

theorem hasText_iff : v.hasText ↔ ∃ text, signaturePart v = .ok text := by
  cases v <;> simp [hasText, signaturePart]

theorem hasMember_iff (custom : Option String) :
    v.hasMember ↔ ∃ member, enumMember v custom = .ok member := by
  cases v <;> simp [hasMember, enumMember]

end Json.Value

theorem forall_hasText_iff {values : List Value} :
    (∀ v ∈ values, v.hasText) ↔ ∃ texts, values.mapM signaturePart = .ok texts := by
  induction values with
  | nil => exact iff_of_true (List.forall_mem_nil _) ⟨[], rfl⟩
  | cons v values ih =>
    rw [List.forall_mem_cons, Value.hasText_iff, ih, List.mapM_cons]
    constructor
    · rintro ⟨⟨text, htext⟩, texts, htexts⟩
      exact ⟨text :: texts, bind_eq_ok.2 ⟨text, htext, bind_eq_ok.2 ⟨texts, htexts, rfl⟩⟩⟩
    · rintro ⟨_, h⟩
      obtain ⟨text, htext, h⟩ := bind_eq_ok.1 h
      obtain ⟨texts, htexts, -⟩ := bind_eq_ok.1 h
      exact ⟨⟨text, htext⟩, texts, htexts⟩

theorem forall_hasMember_iff {values : List Value} (names : Option (List String)) :
    (∀ v ∈ values, v.hasMember) ↔ ∃ members, enumMembers values names = .ok members := by
  induction values generalizing names with
  | nil => exact iff_of_true (List.forall_mem_nil _) ⟨[], rfl⟩
  | cons v values ih =>
    rw [List.forall_mem_cons, Value.hasMember_iff (names.bind List.head?),
      ih (names.map List.tail), enumMembers]
    constructor
    · rintro ⟨⟨member, hmember⟩, members, hmembers⟩
      exact ⟨_, bind_eq_ok.2 ⟨member, hmember, bind_eq_ok.2 ⟨members, hmembers, rfl⟩⟩⟩
    · rintro ⟨_, h⟩
      obtain ⟨member, hmember, h⟩ := bind_eq_ok.1 h
      obtain ⟨members, hmembers, -⟩ := bind_eq_ok.1 h
      exact ⟨⟨member, hmember⟩, members, hmembers⟩

namespace Schema

/-- The enumeration has a value that no member can stand for, or has names for its members that are
not as many as its values. -/
def Faulty (s : Schema) : Prop :=
  (∃ v ∈ s.enumValues.getD [], ¬v.hasMember) ∨
    ∃ names, s.memberNames = some names ∧ names.length ≠ (s.enumValues.getD []).length

/-- Declaring the enumeration in a context comes to an error. -/
def FailsIn (s : Schema) (name : String) (ctx : Context) : Prop :=
  ∃ e, ((declareEnum s name).outcome ctx).1 = .error e

/-- An enumeration with the text of this one is entered under the name that it proposes. -/
def KnownIn (s : Schema) (name : String) (ctx : Context) : Prop :=
  ∃ entry, Table.get? (s.proposal name) ctx.enums = some entry ∧
    signature (s.enumValues.getD []) = .ok entry.signature

variable {s : Schema} {name enumName key text : String} {ctx : Context}

/-- Nothing is known at the start. -/
theorem not_knownIn_start (s : Schema) (name : String) : ¬s.KnownIn name {} := by
  rintro ⟨entry, hentry, -⟩
  cases hentry

theorem faulty_of_not_hasText (h : ∃ v ∈ s.enumValues.getD [], ¬v.hasText) : s.Faulty :=
  have ⟨v, hv, hno⟩ := h
  .inl ⟨v, hv, fun hmember ↦ hno (Value.hasText_of_hasMember hmember)⟩

theorem checkMemberNames_eq_ok : s.checkMemberNames enumName = .ok () ↔
    ∀ names, s.memberNames = some names → names.length = (s.enumValues.getD []).length := by
  unfold checkMemberNames
  cases s.memberNames with
  | none => simp
  | some names => simp

theorem not_faulty_iff (enumName : String) : ¬s.Faulty ↔
    (∃ members, enumMembers (s.enumValues.getD []) s.memberNames = .ok members) ∧
      s.checkMemberNames enumName = .ok () := by
  rw [checkMemberNames_eq_ok, ← forall_hasMember_iff s.memberNames]
  simp only [Faulty, not_or, not_exists, not_and, not_not, ne_eq]

/-- A new enumeration is declared exactly if it is not at fault. -/
theorem not_faulty_iff_newEnum : ¬s.Faulty ↔
    ∃ t ctx', (newEnum s key text).outcome ctx = (.ok t, ctx') := by
  rw [not_faulty_iff (Names.allocate key ctx.typeNames).1]
  constructor
  · rintro ⟨⟨members, hmembers⟩, hcheck⟩
    exact ⟨_, _, Build.newEnum_eq_ok.2 ⟨_, _, members, rfl, hcheck, hmembers, rfl, rfl⟩⟩
  · rintro ⟨t, ctx', h⟩
    obtain ⟨enumName, counts, members, hname, hcheck, hmembers, -⟩ := Build.newEnum_eq_ok.1 h
    rw [hname]
    exact ⟨⟨members, hmembers⟩, hcheck⟩

theorem not_failsIn_iff_outcome :
    ¬s.FailsIn name ctx ↔ ∃ t ctx', (declareEnum s name).outcome ctx = (.ok t, ctx') := by
  unfold FailsIn
  rcases (declareEnum s name).outcome ctx with ⟨_ | _, _⟩ <;> simp

/-- An enumeration passes if it has a text and is known by it or not at fault. -/
theorem not_failsIn_iff : ¬s.FailsIn name ctx ↔
    (∀ v ∈ s.enumValues.getD [], v.hasText) ∧ (s.KnownIn name ctx ∨ ¬s.Faulty) := by
  rw [not_failsIn_iff_outcome]
  constructor
  · rintro ⟨t, ctx', h⟩
    obtain ⟨text, htext, hcases⟩ := Build.declareEnum_eq_ok.1 h
    obtain ⟨texts, htexts, -⟩ := signature_eq_ok.1 htext
    refine ⟨forall_hasText_iff.2 ⟨texts, htexts⟩, ?_⟩
    rcases hcases with ⟨hentry, -⟩ | ⟨-, hnew⟩
    · exact .inl ⟨_, hentry, htext⟩
    · exact .inr (not_faulty_iff_newEnum.2 ⟨t, ctx', hnew⟩)
  · rintro ⟨htexts, hcases⟩
    by_cases hknown : s.KnownIn name ctx
    · obtain ⟨entry, hentry, htext⟩ := hknown
      exact ⟨entry.type, ctx, Build.declareEnum_eq_ok.2 ⟨_, htext, .inl ⟨hentry, rfl⟩⟩⟩
    · obtain ⟨texts, htexts⟩ := forall_hasText_iff.1 htexts
      have htext : signature (s.enumValues.getD []) = .ok (Text.join "_" texts) :=
        signature_eq_ok.2 ⟨texts, htexts, rfl⟩
      obtain ⟨t, ctx', hnew⟩ := not_faulty_iff_newEnum.1 (hcases.resolve_left hknown)
      have hother : ∀ entry, Table.get? (s.proposal name) ctx.enums = some entry →
          entry.signature ≠ Text.join "_" texts :=
        fun entry hentry hsame ↦ hknown ⟨entry, hentry, hsame ▸ htext⟩
      exact ⟨t, ctx', Build.declareEnum_eq_ok.2 ⟨_, htext, .inr ⟨hother, hnew⟩⟩⟩

/-- What makes an enumeration fail: a value without a text, or a fault where it is not known. -/
theorem failsIn_iff : s.FailsIn name ctx ↔
    (∃ v ∈ s.enumValues.getD [], ¬v.hasText) ∨ s.Faulty ∧ ¬s.KnownIn name ctx := by
  rw [← not_iff_not, not_failsIn_iff]
  simp only [not_or, not_exists, not_and, not_not]
  rw [or_comm, or_iff_not_imp_left, not_not]

/-- An enumeration is known after a history if the latest one that was declared for its name falls
into the same pieces. -/
theorem knownIn_iff_latest {env : Env} {steps : List Step} (h : History env ctx steps) :
    s.KnownIn name ctx ↔ ∃ last, Latest steps (s.proposal name) last ∧
      SamePieces last.values (s.enumValues.getD []) := by
  constructor
  · rintro ⟨entry, hentry, htext⟩
    obtain ⟨last, hlast⟩ := h.enumCourse.latest_of_entry hentry
    obtain ⟨text, htext', hentry'⟩ := h.enumCourse.entry_of_latest hlast
    cases hentry.symm.trans hentry'
    exact ⟨last, hlast, samePieces_iff.2 ⟨text, htext', htext⟩⟩
  · rintro ⟨last, hlast, hpieces⟩
    obtain ⟨text, hsame, htext⟩ := samePieces_iff.1 hpieces
    obtain ⟨text', htext', hentry⟩ := h.enumCourse.entry_of_latest hlast
    cases hsame.symm.trans htext'
    exact ⟨_, hentry, htext⟩

end Schema

/-! ## Enumerations that make another one known -/

/-- An enumeration of texts with a title. -/
def titled (title : String) (texts : List String) : Schema :=
  { labels texts with title := some title }

theorem decides_titled (env : Env) (title : String) (texts : List String) :
    env.EnumDecides (titled title texts) :=
  ⟨rfl, rfl, rfl, rfl, rfl, rfl, rfl⟩

theorem not_failsIn_titled (title name : String) (texts : List String) (ctx : Context) :
    ¬(titled title texts).FailsIn name ctx := by
  have hvalues : (titled title texts).enumValues.getD [] = texts.map .str :=
    enumValues_labels texts
  have hmembers : ∀ v ∈ (titled title texts).enumValues.getD [], v.hasMember := by
    rw [hvalues, List.forall_mem_map]
    exact fun _ _ ↦ rfl
  refine Schema.not_failsIn_iff.2 ⟨fun v hv ↦ Value.hasText_of_hasMember (hmembers v hv), .inr ?_⟩
  rintro (⟨v, hv, hno⟩ | ⟨names, hnames, -⟩)
  · exact hno (hmembers v hv)
  · cases hnames

variable {env : Env} {s : Schema}

/-- If all values have texts, an enumeration of these texts makes the enumeration known. -/
theorem exists_knownIn (hnamed : env.options.namedEnums = true)
    (hvalues : s.enumValues.isSome = true) (htexts : ∀ v ∈ s.enumValues.getD [], v.hasText)
    (name : String) : ∃ ctx, Reached env ctx ∧ s.KnownIn name ctx := by
  obtain ⟨texts, htexts⟩ := forall_hasText_iff.1 htexts
  have htext : signature (s.enumValues.getD []) = .ok (Text.join "_" texts) :=
    signature_eq_ok.2 ⟨texts, htexts, rfl⟩
  have hne : texts ≠ [] := by
    rintro rfl
    obtain ⟨values, hsome⟩ := Option.isSome_iff_exists.1 hvalues
    obtain ⟨-, hfilled⟩ := Option.filter_eq_some_iff.1 hsome
    rw [hsome, Option.getD_some] at htexts
    cases values with
    | nil => cases hfilled
    | cons v values =>
      rw [List.mapM_cons] at htexts
      obtain ⟨text, -, htexts⟩ := bind_eq_ok.1 htexts
      obtain ⟨rest, -, htexts⟩ := bind_eq_ok.1 htexts
      cases htexts
  let other := titled (s.title.getD (Text.upperFirst name)) texts
  have henum : env.options.declaresEnum other "x" = true := by
    obtain ⟨first, rest, rfl⟩ := List.exists_cons_of_ne_nil hne
    simp [Options.declaresEnum, hnamed, other, titled, labels, Schema.enumValues]
  obtain ⟨t, ctx, hout⟩ := Schema.not_failsIn_iff_outcome.1
    (not_failsIn_titled (s.title.getD (Text.upperFirst name)) "x" texts {})
  obtain ⟨text, htext', hentry⟩ := Enumeration.entry_after (e := ⟨other, "x", {}, t, ctx⟩) hout
  have hreached : Reached env _ :=
    Reached.start.schemaType (some (.inline other)) (some "x") .base
  rw [(decides_titled env _ texts).outcome henum, hout] at hreached
  have hsame : signature ((texts.map Value.str)) = .ok text :=
    enumValues_labels texts ▸ htext'
  rw [signature_texts] at hsame
  exact ⟨ctx, hreached, ⟨text, t⟩, hentry, htext.trans hsame⟩

/-- Whether an enumeration fails is a matter of the enumeration alone, if it is not at fault or has
a value without a text. In every other case it depends on what was declared before. -/
theorem enum_failures (hnamed : env.options.namedEnums = true)
    (hvalues : s.enumValues.isSome = true) (name : String) :
    (∀ ctx, s.FailsIn name ctx ↔
      (∃ v ∈ s.enumValues.getD [], ¬v.hasText) ∨ s.Faulty ∧ ¬s.KnownIn name ctx) ∧
    (∀ ctx steps, History env ctx steps → (s.KnownIn name ctx ↔
      ∃ last, Latest steps (s.proposal name) last ∧
        SamePieces last.values (s.enumValues.getD []))) ∧
    ((∀ ctx, Reached env ctx → (s.FailsIn name ctx ↔ s.Faulty)) ↔
      (s.Faulty → ∃ v ∈ s.enumValues.getD [], ¬v.hasText)) ∧
    ((∀ ctx ctx', Reached env ctx → Reached env ctx' →
        (s.FailsIn name ctx ↔ s.FailsIn name ctx')) ↔
      (s.Faulty → ∃ v ∈ s.enumValues.getD [], ¬v.hasText)) := by
  have hsame (h : s.Faulty → ∃ v ∈ s.enumValues.getD [], ¬v.hasText) (ctx : Context) :
      s.FailsIn name ctx ↔ s.Faulty := by
    rw [Schema.failsIn_iff]
    exact ⟨fun hfails ↦ hfails.elim Schema.faulty_of_not_hasText And.left, fun hf ↦ .inl (h hf)⟩
  have hother (hfaulty : s.Faulty) (hall : ¬∃ v ∈ s.enumValues.getD [], ¬v.hasText) :
      s.FailsIn name {} ∧ ∃ ctx, Reached env ctx ∧ ¬s.FailsIn name ctx := by
    have htexts : ∀ v ∈ s.enumValues.getD [], v.hasText := by
      intro v hv
      by_contra hno
      exact hall ⟨v, hv, hno⟩
    obtain ⟨ctx, hctx, hknown⟩ := exists_knownIn hnamed hvalues htexts name
    exact ⟨Schema.failsIn_iff.2 (.inr ⟨hfaulty, s.not_knownIn_start name⟩), ctx, hctx,
      Schema.not_failsIn_iff.2 ⟨htexts, .inl hknown⟩⟩
  refine ⟨fun ctx ↦ Schema.failsIn_iff, fun ctx steps ↦ Schema.knownIn_iff_latest, ⟨?_, ?_⟩,
    ⟨?_, ?_⟩⟩
  · intro h hfaulty
    by_contra hall
    obtain ⟨-, ctx, hctx, hpasses⟩ := hother hfaulty hall
    exact hpasses ((h ctx hctx).2 hfaulty)
  · exact fun h ctx _ ↦ hsame h ctx
  · intro h hfaulty
    by_contra hall
    obtain ⟨hfails, ctx, hctx, hpasses⟩ := hother hfaulty hall
    exact hpasses ((h {} ctx .start hctx).1 hfails)
  · exact fun h ctx ctx' _ _ ↦ (hsame h ctx).trans (hsame h ctx').symm

namespace Faults

/-- The text `true` is declared under the name `status`. -/
def declared : Enumeration := Labels.declared {} "status" "Status" ["true"]

def flag : Schema where
  enum := some [.bool true]

def misnamed : Schema where
  enum := some [.str "true"]
  enumNames := some ["On", "Off"]

theorem faulty_flag : flag.Faulty :=
  .inl ⟨.bool true, List.mem_singleton_self _, Bool.false_ne_true⟩

theorem faulty_misnamed : misnamed.Faulty :=
  .inr ⟨_, rfl, by decide⟩

theorem history : History Labels.env declared.after [declared.step] :=
  Labels.history_declared .start Labels.status_key (fun _ h ↦ nomatch h) (by simp) (by decide)

theorem latest : Latest [declared.step] (proposedName (Text.upperFirst "status")) declared :=
  ⟨rfl, ⟨_, rfl⟩, [], [], rfl, fun _ h ↦ nomatch h⟩

end Faults

/-- A truth value and names that are too many are both reported, but not after the text `true` has
been declared under the same name. -/
theorem faults_pass_after_text : ∃ (env : Env) (ctx : Context), env.options.namedEnums = true ∧
    Reached env {} ∧ Reached env ctx ∧ ∀ s ∈ [Faults.flag, Faults.misnamed],
      s.enumValues.isSome = true ∧ s.Faulty ∧ s.FailsIn "status" {} ∧ ¬s.FailsIn "status" ctx := by
  have hreached : Reached Labels.env Faults.declared.after :=
    Reached.start.calls (History.exists_iff_calls.1 ⟨_, Faults.history⟩)
  refine ⟨Labels.env, Faults.declared.after, rfl, .start, hreached, ?_⟩
  have hpass {s : Schema} {v : Value} (hvalues : s.enumValues = some [v])
      (htext : signaturePart v = .ok "true") (hfaulty : s.Faulty)
      (hkey : s.proposal "status" = proposedName (Text.upperFirst "status")) :
      s.enumValues.isSome = true ∧ s.Faulty ∧ s.FailsIn "status" {} ∧
        ¬s.FailsIn "status" Faults.declared.after := by
    have hsome : s.enumValues.isSome = true := by rw [hvalues, Option.isSome_some]
    have hall : ∀ w ∈ s.enumValues.getD [], w.hasText := by
      rw [hvalues, Option.getD_some, List.forall_mem_singleton]
      exact Value.hasText_iff.2 ⟨_, htext⟩
    have hsignature : signature (s.enumValues.getD []) = .ok "true" := by
      rw [hvalues, Option.getD_some, signature, List.mapM_cons, htext]
      rfl
    obtain ⟨hfails, hknown, -, -⟩ := @enum_failures Labels.env s rfl hsome "status"
    refine ⟨hsome, hfaulty, (hfails _).2 (.inr ⟨hfaulty, s.not_knownIn_start _⟩), fun hno ↦ ?_⟩
    have hpieces : SamePieces Faults.declared.values (s.enumValues.getD []) :=
      samePieces_iff.2 ⟨"true", signature_texts ["true"], hsignature⟩
    have hlatest := (hknown _ _ Faults.history).2 ⟨_, hkey ▸ Faults.latest, hpieces⟩
    rcases (hfails _).1 hno with ⟨w, hw, hnone⟩ | ⟨-, hunknown⟩
    · exact hnone (hall w hw)
    · exact hunknown hlatest
  rw [List.forall_mem_cons, List.forall_mem_singleton]
  exact ⟨hpass rfl rfl Faults.faulty_flag rfl, hpass rfl rfl Faults.faulty_misnamed rfl⟩

end ApiClient
