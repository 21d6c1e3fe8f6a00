import ApiClient.Proofs.Compile.EnumNames
import ApiClient.Proofs.Compile.SharedEnums
import Mathlib.Data.List.Nodup

/-!
# Members with the same name

A member without a name of its own is named by the spelling of its value, with a dollar sign in
front where that is needed. The spelling passes over signs and points, and the first letter of a
text becomes a capital. So a number shares its name with the number of the other sign, and `a` with
`A`. Values that differ in their letters and digits, whatever the case of the letters, have names
that differ.
-/

namespace ApiClient

open TypeScript Json

namespace Text

theorem skeleton_number (n : Nat) : skeleton (toString n) = (toString n).toList := by
  have halnum : ∀ c ∈ (toString n).toList, isAlphanumeric c := by
    intro c hc
    have hc := isAlphanum_of_isDigit (isDigit_of_mem_number hc)
    rwa [isAlphanumeric_eq_isAlphanum (ascii_of_isAlphanum hc)]
  rw [skeleton, List.filter_eq_self.2 halnum]
  refine (List.map_congr_left fun c hc ↦ ?_).trans (List.map_id _)
  exact toLower_of_isDigit (isDigit_of_mem_number hc)

end Text

namespace Json.Value

/-- The text that a member for the value is named by. -/
def label : Value → String
  | .str s => s
  | .num n => n.text
  | .null | .bool _ | .arr _ | .obj _ => ""

def spelling (v : Value) : String :=
  Text.spelling v.label

/-- The letters and numbers of the text, in small form. -/
def skeleton (v : Value) : List Char :=
  Text.skeleton v.label

theorem isAscii_label {v : Value} (hv : v.isAscii) : Text.isAscii v.label := by
  cases v with
  | str s =>
    rw [isAscii_str] at hv
    exact hv
  | num n => exact n.ascii_text
  | _ => rfl

theorem skeleton_whole (n : Int) :
    (Value.num (.int n)).skeleton = (toString n.natAbs).toList := by
  have hsign : Text.skeleton "-" = [] := by decide
  cases n with
  | ofNat n => exact Text.skeleton_number n
  | negSucc n =>
    have htext : (Value.num (.int (.negSucc n))).label = "-" ++ toString (n + 1) := rfl
    rw [skeleton, htext, Text.skeleton_append, hsign, Text.skeleton_number]
    rfl

theorem isDigit_of_mem_skeleton_whole {n : Int} {c : Char}
    (h : c ∈ (Value.num (.int n)).skeleton) : c.isDigit := by
  rw [skeleton_whole] at h
  exact Text.isDigit_of_mem_number h

end Json.Value

/-! ## The names of all members -/

theorem name_of_enumMember {v : Value} {member : EnumMember} (h : enumMember v none = .ok member) :
    member.name = toIdentifier v.label true := by
  cases v with
  | str s | num n =>
    rw [enumMember, Option.getD_none, Except.ok.injEq] at h
    rw [← h, Value.label]
  | _ => cases h

theorem names_of_enumMembers {values : List Value} {members : List EnumMember}
    (h : enumMembers values none = .ok members) :
    members.map EnumMember.name = values.map fun v ↦ toIdentifier v.label true := by
  induction values generalizing members with
  | nil =>
    cases h
    rfl
  | cons v values ih =>
    obtain ⟨member, hmember, h⟩ := bind_eq_ok.1 h
    obtain ⟨others, hothers, h⟩ := bind_eq_ok.1 h
    cases h
    rw [List.map_cons, List.map_cons, ih hothers, name_of_enumMember hmember]

theorem nodup_names_iff {values : List Value} {members : List EnumMember}
    (h : enumMembers values none = .ok members) :
    (members.map EnumMember.name).Nodup ↔ (values.map Value.spelling).Nodup := by
  rw [names_of_enumMembers h]
  simp only [List.Nodup, List.pairwise_map, ne_eq, toIdentifier_eq_iff]
  rfl

section

variable {values : List Value} (hvalues : ∀ v ∈ values, v.isAscii)

include hvalues

theorem nodup_spellings_of_skeletons (h : (values.map Value.skeleton).Nodup) :
    (values.map Value.spelling).Nodup := by
  rw [List.Nodup, List.pairwise_map] at h ⊢
  refine h.imp_of_mem fun hv hw hother hsame ↦ hother ?_
  exact Text.skeleton_eq_of_spelling (Value.isAscii_label (hvalues _ hv))
    (Value.isAscii_label (hvalues _ hw)) hsame

/-- Values without letters have the spelling of their digits. -/
theorem nodup_spellings_iff_of_digits (hdigits : ∀ v ∈ values, ∀ c ∈ v.skeleton, c.isDigit) :
    (values.map Value.spelling).Nodup ↔ (values.map Value.skeleton).Nodup := by
  refine ⟨fun h ↦ ?_, nodup_spellings_of_skeletons hvalues⟩
  rw [List.Nodup, List.pairwise_map] at h ⊢
  refine h.imp_of_mem fun {v w} hv hw hother hsame ↦ hother ?_
  calc
    v.spelling = String.ofList v.skeleton :=
      Text.spelling_of_digits (Value.isAscii_label (hvalues v hv)) (hdigits v hv)
    _ = String.ofList w.skeleton := by rw [hsame]
    _ = w.spelling :=
      (Text.spelling_of_digits (Value.isAscii_label (hvalues w hw)) (hdigits w hw)).symm

end

/-- Whole numbers are told apart by their amounts. -/
theorem nodup_spellings_of_whole (ns : List Int) :
    ((ns.map fun n ↦ Value.num (.int n)).map Value.spelling).Nodup ↔ (ns.map Int.natAbs).Nodup := by
  have hsame : ∀ m n : Nat, (toString m).toList = (toString n).toList ↔ m = n := fun m n ↦
    ⟨fun h ↦ Text.number_injective (congrArg ("" ++ ·) (String.toList_inj.1 h)),
      congrArg fun k ↦ (toString k).toList⟩
  rw [nodup_spellings_iff_of_digits]
  · simp only [List.Nodup, List.pairwise_map, ne_eq, Value.skeleton_whole, hsame]
  · exact List.forall_mem_map.2 fun n _ ↦ Value.isAscii_num
  · exact List.forall_mem_map.2 fun n _ c ↦ Value.isDigit_of_mem_skeleton_whole

namespace Enumeration

variable {e : Enumeration} {name : String} {members : List EnumMember}

theorem members_of_makes (he : e.step.Sound) (hmakes : e.Makes (.enum name members)) :
    enumMembers e.values e.schema.memberNames = .ok members := by
  obtain ⟨text, -, ⟨hentry, hsame⟩ | ⟨-, hnew⟩⟩ := Build.declareEnum_eq_ok.1 he
  · exact absurd ⟨_, hmakes⟩ (Shares.not_fresh ⟨hentry, hsame⟩)
  · obtain ⟨enumName, counts, members', -, -, hmembers, -, hafter⟩ := Build.newEnum_eq_ok.1 hnew
    have hmakes' : e.Makes (.enum enumName members') := congrArg Context.enumDeclarations hafter
    have hlast := List.append_cancel_left (hmakes.symm.trans hmakes')
    cases hlast
    exact hmembers

end Enumeration

/-- The members of an enumeration with different values have different names exactly if no two of
the values have the same spelling. It is enough that the values differ in their letters and digits,
and necessary too if they have no letters, as whole numbers. -/
theorem member_names_distinct_iff {e : Enumeration} {name : String} {members : List EnumMember}
    (he : e.step.Sound) (hmakes : e.Makes (.enum name members))
    (hcustom : e.schema.memberNames = none) :
    (e.values.Nodup → ((members.map EnumMember.name).Nodup ↔
      ∀ v ∈ e.values, ∀ w ∈ e.values, v.spelling = w.spelling → v = w)) ∧
    ((∀ v ∈ e.values, v.isAscii) → (e.values.map Value.skeleton).Nodup →
      (members.map EnumMember.name).Nodup) ∧
    ((∀ v ∈ e.values, v.isAscii) → (∀ v ∈ e.values, ∀ c ∈ v.skeleton, c.isDigit) →
      ((members.map EnumMember.name).Nodup ↔ (e.values.map Value.skeleton).Nodup)) ∧
    (∀ ns : List Int, e.values = ns.map (fun n ↦ .num (.int n)) →
      ((members.map EnumMember.name).Nodup ↔ (ns.map Int.natAbs).Nodup)) := by
  have hmembers := Enumeration.members_of_makes he hmakes
  rw [hcustom] at hmembers
  rw [nodup_names_iff hmembers]
  refine ⟨fun hvalues ↦ List.nodup_map_iff_inj_on hvalues, nodup_spellings_of_skeletons,
    nodup_spellings_iff_of_digits, fun ns hns ↦ ?_⟩
  rw [hns]
  exact nodup_spellings_of_whole ns

/-- The members for `a` and `A` have the same name. -/
theorem same_name_twice : ∃ (e : Enumeration) (name : String) (members : List EnumMember),
    e.step.Sound ∧ e.Makes (.enum name members) ∧ e.schema.memberNames = none ∧
      e.values.Nodup ∧ ¬(members.map EnumMember.name).Nodup := by
  have hsound : (Labels.declared {} "status" "Status" ["a", "A"]).step.Sound :=
    Labels.sound_declared Labels.status_key fun _ h ↦ nomatch h
  have hvalues : (Labels.declared {} "status" "Status" ["a", "A"]).values =
      [.str "a", .str "A"] := rfl
  refine ⟨_, _, _, hsound, rfl, rfl, ?_, ?_⟩
  · rw [hvalues]
    simp
  · intro hnames
    obtain ⟨hiff, -⟩ := member_names_distinct_iff hsound rfl rfl
    have hsame := (hiff (by rw [hvalues]; simp)).1 hnames (.str "a") (by rw [hvalues]; simp)
      (.str "A") (by rw [hvalues]; simp) (by decide +kernel)
    simp at hsame

end ApiClient
